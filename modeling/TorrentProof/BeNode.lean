import Mathlib
import TorrentProof.Bencode
import TorrentProof.CText
import TorrentProof.Fallible

/-! # The trees of `bencode.h`

A `be_node` is a tag with a union, and a node or string a pointer may lead to nothing.
The accessors below are the reads `n->val.s`, `n->val.i`, `n->val.l` and `n->val.d`,
which go wrong for a null pointer and for a tag of another member.
-/
namespace TorrentClient
open Bencode CText Decimal Fallible

/-- What makes a run of the program undefined. -/
inductive Fault where
  | nullPointer
  /-- an access behind the end of an array -/
  | outOfBounds
  /-- a union read through another member than the one its tag names -/
  | wrongMember
  /-- an array of negative size -/
  | badAlloc
  deriving DecidableEq

/-- `be_node`, the arrays of `val.l` and `val.d` up to the null pointer that ends them. -/
inductive be_node where
  | BE_STR (s : Option (List UInt8))
  | BE_INT (i : Int64)
  | BE_LIST (l : List be_node)
  | BE_DICT (d : List (Option (List UInt8) × be_node))
  deriving Inhabited

/-- The bytes behind a `char *`. -/
def deref : Option (List UInt8) → Except Fault (List UInt8)
  | none => .error .nullPointer
  | some s => .ok s

namespace be_node

/-- The bytes behind `val.s`. -/
def s : be_node → Except Fault (List UInt8)
  | BE_STR s => deref s
  | _ => .error .wrongMember

/-- `val.i`. -/
def i : be_node → Except Fault Int64
  | BE_INT i => .ok i
  | _ => .error .wrongMember

/-- `val.l`. -/
def l : be_node → Except Fault (List be_node)
  | BE_LIST l => .ok l
  | _ => .error .wrongMember

/-- `val.d`. -/
def d : be_node → Except Fault (List (Option (List UInt8) × be_node))
  | BE_DICT d => .ok d
  | _ => .error .wrongMember

/-- Entry `j` of an array `val.d`.  Behind the last one is an entry without a key. -/
def entry (d : List (Option (List UInt8) × be_node)) (j : Nat) :
    Except Fault (Option (List UInt8) × be_node) :=
  match d[j]? with
  | none => .error .outOfBounds
  | some e => .ok e

@[simp] theorem s_BE_STR (s : List UInt8) : (BE_STR (some s)).s = .ok s := rfl

@[simp] theorem i_BE_INT (i : Int64) : (BE_INT i).i = .ok i := rfl

@[simp] theorem l_BE_LIST (l : List be_node) : (BE_LIST l).l = .ok l := rfl

@[simp] theorem d_BE_DICT (d : List (Option (List UInt8) × be_node)) : (BE_DICT d).d = .ok d := rfl

@[simp] theorem entry_zero (e : Option (List UInt8) × be_node)
    (d : List (Option (List UInt8) × be_node)) : entry (e :: d) 0 = .ok e := rfl

theorem entry_eq_ok {d : List (Option (List UInt8) × be_node)} {j : Nat}
    {e : Option (List UInt8) × be_node} : entry d j = .ok e ↔ d[j]? = some e := by
  rw [entry]
  cases d[j]? with
  | none => exact ⟨nofun, nofun⟩
  | some e' =>
    constructor
    · intro h
      exact congrArg some (Except.ok.inj h)
    · intro h
      exact congrArg _ (Option.some.inj h)

/-! ### What a read needs -/

theorem s_eq_ok {n : be_node} {s : List UInt8} : n.s = .ok s ↔ n = .BE_STR (some s) := by
  constructor
  · intro h
    match n, h with
    | .BE_STR (some _), h => rw [Except.ok.inj h]
  · rintro rfl
    rfl

theorem i_eq_ok {n : be_node} {i : Int64} : n.i = .ok i ↔ n = .BE_INT i := by
  constructor
  · intro h
    match n, h with
    | .BE_INT _, h => rw [Except.ok.inj h]
  · rintro rfl
    rfl

theorem l_eq_ok {n : be_node} {l : List be_node} : n.l = .ok l ↔ n = .BE_LIST l := by
  constructor
  · intro h
    match n, h with
    | .BE_LIST _, h => rw [Except.ok.inj h]
  · rintro rfl
    rfl

theorem d_eq_ok {n : be_node} {d : List (Option (List UInt8) × be_node)} :
    n.d = .ok d ↔ n = .BE_DICT d := by
  constructor
  · intro h
    match n, h with
    | .BE_DICT _, h => rw [Except.ok.inj h]
  · rintro rfl
    rfl

end be_node

@[simp] theorem deref_some (s : List UInt8) : deref (some s) = .ok s := rfl

theorem deref_eq_ok {key : Option (List UInt8)} {s : List UInt8} :
    deref key = .ok s ↔ key = some s := by
  constructor
  · intro h
    match key, h with
    | some _, h => rw [Except.ok.inj h]
  · rintro rfl
    rfl

/-! ## The tree of a value -/

mutual

/-- The tree a value is decoded to. -/
def node : Value → be_node
  | .str s => .BE_STR (some s)
  | .int i => .BE_INT i
  | .list l => .BE_LIST (nodes l)
  | .dict d => .BE_DICT (entries d)

def nodes : List Value → List be_node
  | [] => []
  | v :: l => node v :: nodes l

def entries : List (List UInt8 × Value) → List (Option (List UInt8) × be_node)
  | [] => []
  | (k, v) :: d => (some k, node v) :: entries d

end

/-- A string in the tree is that of the value. -/
theorem node_eq_BE_STR {v : Value} {s : List UInt8} :
    node v = .BE_STR (some s) ↔ v = .str s := by
  constructor
  · intro h
    match v, h with
    | .str _, h => rw [Option.some.inj (be_node.BE_STR.inj h)]
  · rintro rfl
    rfl

theorem node_eq_BE_INT {v : Value} {i : Int64} : node v = .BE_INT i ↔ v = .int i := by
  constructor
  · intro h
    match v, h with
    | .int _, h => rw [be_node.BE_INT.inj h]
  · rintro rfl
    rfl

theorem nodes_eq_map (l : List Value) : nodes l = l.map node := by
  induction l with
  | nil => rfl
  | cons v l ih => rw [nodes, ih, List.map_cons]

theorem entries_eq_map (d : List (List UInt8 × Value)) :
    entries d = d.map fun e => (some e.1, node e.2) := by
  induction d with
  | nil => rfl
  | cons e d ih =>
    obtain ⟨k, v⟩ := e
    rw [entries, ih, List.map_cons]

/-- The first entry of the tree of a dictionary. -/
theorem entries_eq_cons {d : List (List UInt8 × Value)} {key : Option (List UInt8)} {n : be_node}
    {rest : List (Option (List UInt8) × be_node)} (h : entries d = (key, n) :: rest) :
    ∃ k v d', d = (k, v) :: d' ∧ key = some k ∧ node v = n ∧ entries d' = rest := by
  match d, h with
  | (k, v) :: d', h =>
    obtain ⟨hhead, htail⟩ := List.cons.inj h
    obtain ⟨hkey, hnode⟩ := Prod.mk.inj hhead
    exact ⟨k, v, d', rfl, hkey.symm, hnode, htail⟩

/-- **`be_decoden` decodes by the grammar**: what begins with the text of a value gives
the tree of that value, anything else the null pointer. -/
def Grammatical (be_decoden : List UInt8 → Option be_node) : Prop :=
  (∀ v rest, be_decoden (encode v ++ rest) = some (node v)) ∧
    ∀ s, (∀ v rest, s ≠ encode v ++ rest) → be_decoden s = none

/-- The decoder of the grammar, building trees. -/
def decoder (s : List UInt8) : Option be_node := (decode s).map fun vr => node vr.1

theorem grammatical_decoder : Grammatical decoder := by
  constructor
  · intro v rest
    rw [decoder, decode_encode]
    rfl
  · intro s hs
    cases hdec : decode s with
    | none => rw [decoder, hdec]; rfl
    | some vr => exact absurd (encode_of_decode hdec) (hs vr.1 vr.2)

/-! ## `be_encode` -/

/-- What an encoder did: the bytes at the start of its buffer, and what it returned.  If
that is negative, some of the text may have been written. -/
structure Written where
  bytes : List UInt8
  ret : Int

/-- `be_encode_str(str, outBuf, outBufLen)`. -/
def be_encode_str (str : Option (List UInt8)) (outBufLen : Nat) : Except Fault Written := do
  let str ← deref str
  let text := encodeStr str
  if text.length > outBufLen then pure ⟨[], -1⟩ else pure ⟨text, text.length⟩

/-- The variables of `be_encode` in its loops: what is at the start of the buffer it was
called with, how far `outBuf` has moved into it, how much room is left, and the `int` in which
the sizes are added up. -/
structure Encoding where
  bytes : List UInt8
  outBuf : Nat
  outBufLen : Nat
  sz : Int32

namespace Encoding

/-- Before the loop: `*outBuf = b; EAT(outBuf, outBufLen);`. -/
def start (b : UInt8) (outBufLen : Nat) : Encoding where
  bytes := [b]
  outBuf := 1
  outBufLen := outBufLen - 1
  sz := 1

/-- The buffer when `text` has been written at `outBuf`. -/
def put (e : Encoding) (text : List UInt8) : List UInt8 :=
  e.bytes.take e.outBuf ++ text ++ e.bytes.drop (e.outBuf + text.length)

/-- `CHECK_AND_UPDATE` when `r` is not negative.  It is what was returned that `outBuf` is moved
by, not what was written. -/
def update (e : Encoding) (w : Written) : Encoding where
  bytes := e.put w.bytes
  outBuf := e.outBuf + w.ret.toNat
  outBufLen := e.outBufLen - w.ret.toNat
  sz := Int32.ofInt (e.sz.toInt + w.ret)

/-- Behind the loop: `*outBuf = 'e'` if there is room for it, and `sz++`, which is taken to wrap
around at the largest `int`. -/
def close (e : Encoding) : Written :=
  if e.outBufLen = 0 then ⟨e.bytes, -1⟩ else ⟨e.put [101], (e.sz + 1).toInt⟩

end Encoding

mutual

/-- `be_encode(node, outBuf, outBufLen)` for a buffer that is not null. -/
def be_encode : be_node → Nat → Except Fault Written
  | node, outBufLen =>
    if outBufLen = 0 then pure ⟨[], -1⟩
    else match node with
      | .BE_INT i =>
        let text := 105 :: renderInt i.toInt ++ [101]
        let sz := Int32.ofNat text.length
        if text.length > outBufLen then pure ⟨[], -1⟩ else pure ⟨text, sz.toInt⟩
      | .BE_STR s => do
        let w ← be_encode_str s outBufLen
        -- the size of a string is cut down to an `int`
        let sz := Int32.ofInt w.ret
        if sz < 0 then pure ⟨w.bytes, -1⟩ else pure ⟨w.bytes, sz.toInt⟩
      | .BE_LIST l => be_encode_list l (.start 108 outBufLen)
      | .BE_DICT d => be_encode_dict d (.start 100 outBufLen)

/-- The loop of `be_encode` over a list, and what follows it. -/
def be_encode_list : List be_node → Encoding → Except Fault Written
  | [], e => pure e.close
  | node :: l, e => do
    let w ← be_encode node e.outBufLen
    if w.ret < 0 then pure ⟨e.put w.bytes, -1⟩ else be_encode_list l (e.update w)

/-- The loop of `be_encode` over a dictionary, and what follows it. -/
def be_encode_dict : List (Option (List UInt8) × be_node) → Encoding → Except Fault Written
  | [], e => pure e.close
  | (key, val) :: d, e => do
    let w ← be_encode_str key e.outBufLen
    if w.ret < 0 then pure ⟨e.put w.bytes, -1⟩
    else
      let e := e.update w
      let w ← be_encode val e.outBufLen
      if w.ret < 0 then pure ⟨e.put w.bytes, -1⟩ else be_encode_dict d (e.update w)

end

/-- Without room nothing is written. -/
theorem be_encode_no_room (n : be_node) : be_encode n 0 = .ok ⟨[], -1⟩ := by
  cases n <;> rfl

/-! ### Sizes an `int` holds -/

/-- Adding to an `int` what it has room for. -/
theorem ofInt_add_natCast {sz n : Nat} (h : sz + n < 2 ^ 31) :
    Int32.ofInt ((Int32.ofNat sz).toInt + n) = Int32.ofNat (sz + n) := by
  rw [Int32.toInt_ofNat_of_lt (by omega), ← Int.natCast_add, Int32.ofInt_eq_ofNat]

theorem toInt_succ {n : Nat} (h : n + 1 < 2 ^ 31) :
    (Int32.ofNat n + 1).toInt = (n + 1 : Nat) := by
  rw [show Int32.ofNat n + 1 = Int32.ofNat (n + 1) by rw [Int32.ofNat_add]; rfl,
    Int32.toInt_ofNat_of_lt (by omega)]

theorem ofNat_not_neg {n : Nat} (h : n < 2 ^ 31) : ¬ Int32.ofNat n < 0 := by
  rw [Int32.lt_iff_toInt_lt, Int32.toInt_ofNat_of_lt h]
  simp

/-- Sums wrap around. -/
theorem ofInt_add {sz r : Int} :
    Int32.ofInt ((Int32.ofInt sz).toInt + r) = Int32.ofInt (sz + r) := by
  rw [Int32.ofInt_add, Int32.ofInt_toInt, Int32.ofInt_add]

theorem toInt_ofInt_le {n : Int} (h : -1 ≤ n) : (Int32.ofInt n).toInt ≤ n := by
  by_cases hlt : n < 2 ^ 31
  · rw [Int32.toInt_ofInt_of_le (by omega) hlt]
  · have := Int32.toInt_lt (Int32.ofInt n)
    omega

/-! ### The text of a value -/

theorem be_encode_str_some {s : List UInt8} {outBufLen : Nat}
    (h : (encodeStr s).length ≤ outBufLen) :
    be_encode_str (some s) outBufLen = .ok ⟨encodeStr s, (encodeStr s).length⟩ := by
  rw [be_encode_str, deref_some, ok_bind]
  exact if_neg (by omega)

namespace Encoding

/-- The loop when the bytes `text` have been written one after the other, with room for `room`
more. -/
def after (text : List UInt8) (room : Nat) : Encoding where
  bytes := text
  outBuf := text.length
  outBufLen := room
  sz := Int32.ofNat text.length

@[simp] theorem after_outBufLen (text : List UInt8) (room : Nat) :
    (after text room).outBufLen = room := rfl

theorem start_eq (b : UInt8) (outBufLen : Nat) : start b outBufLen = after [b] (outBufLen - 1) :=
  rfl

theorem put_after (text more : List UInt8) (room : Nat) :
    (after text room).put more = text ++ more := by
  rw [put, after]
  dsimp only
  rw [List.take_length, List.drop_of_length_le (by omega), List.append_nil]

theorem update_after {text more : List UInt8} {room : Nat}
    (h : (text ++ more).length < 2 ^ 31) :
    (after text room).update ⟨more, more.length⟩ = after (text ++ more) (room - more.length) := by
  rw [List.length_append] at h
  rw [update, put_after]
  dsimp only [after]
  rw [Int.toNat_natCast, List.length_append, ofInt_add_natCast h]

theorem close_after {text : List UInt8} {room : Nat} (hroom : 0 < room)
    (h : text.length + 1 < 2 ^ 31) :
    (after text room).close = ⟨text ++ [101], (text ++ [101]).length⟩ := by
  rw [close, after_outBufLen, if_neg (Nat.ne_of_gt hroom), put_after, List.length_append,
    List.length_singleton]
  exact congrArg _ (toInt_succ h)

end Encoding

mutual

/-- **`be_encode` writes the text of a value** of less than 2 GiB into a buffer with room for
it. -/
theorem be_encode_node (v : Value) {outBufLen : Nat} (h : (encode v).length ≤ outBufLen)
    (hint : (encode v).length < 2 ^ 31) :
    be_encode (node v) outBufLen = .ok ⟨encode v, (encode v).length⟩ := by
  have h0 : outBufLen ≠ 0 := Nat.ne_of_gt (Nat.lt_of_lt_of_le (encode_length_pos v) h)
  match v with
  | .str s =>
    rw [encode] at h hint ⊢
    rw [node, be_encode, if_neg h0]
    dsimp only
    rw [be_encode_str_some h, ok_bind]
    dsimp only
    rw [Int32.ofInt_eq_ofNat, if_neg (ofNat_not_neg hint), Int32.toInt_ofNat_of_lt hint]
    rfl
  | .int i =>
    rw [encode] at h hint ⊢
    rw [node, be_encode, if_neg h0]
    dsimp only
    rw [if_neg (by omega), Int32.toInt_ofNat_of_lt hint]
    rfl
  | .list l =>
    rw [encode, List.length_append, List.length_cons, List.length_singleton] at h hint
    rw [encode, node, be_encode, if_neg h0]
    rw [Encoding.start_eq, be_encode_nodes l (by omega) (by rw [List.length_singleton]; omega)]
    rfl
  | .dict d =>
    rw [encode, List.length_append, List.length_cons, List.length_singleton] at h hint
    rw [encode, node, be_encode, if_neg h0]
    rw [Encoding.start_eq, be_encode_entries d (by omega) (by rw [List.length_singleton]; omega)]
    rfl

theorem be_encode_nodes (l : List Value) {text : List UInt8} {room : Nat}
    (h : (encodeList l).length < room) (hint : text.length + (encodeList l).length + 1 < 2 ^ 31) :
    be_encode_list (nodes l) (.after text room) =
      .ok ⟨text ++ encodeList l ++ [101], (text ++ encodeList l ++ [101]).length⟩ := by
  match l with
  | [] =>
    rw [encodeList, List.append_nil, nodes, be_encode_list, Encoding.close_after (by omega)]
    · rfl
    · rw [encodeList, List.length_nil] at hint
      exact hint
  | v :: l =>
    rw [encodeList, List.length_append] at h hint
    rw [encodeList, nodes, be_encode_list, Encoding.after_outBufLen,
      be_encode_node v (by omega) (by omega), ok_bind]
    dsimp only
    rw [if_neg (by omega), Encoding.update_after (by rw [List.length_append]; omega),
      be_encode_nodes l (by omega) (by rw [List.length_append]; omega), List.append_assoc text]

theorem be_encode_entries (d : List (List UInt8 × Value)) {text : List UInt8} {room : Nat}
    (h : (encodeDict d).length < room) (hint : text.length + (encodeDict d).length + 1 < 2 ^ 31) :
    be_encode_dict (entries d) (.after text room) =
      .ok ⟨text ++ encodeDict d ++ [101], (text ++ encodeDict d ++ [101]).length⟩ := by
  match d with
  | [] =>
    rw [encodeDict, List.append_nil, entries, be_encode_dict, Encoding.close_after (by omega)]
    · rfl
    · rw [encodeDict, List.length_nil] at hint
      exact hint
  | (k, v) :: d =>
    rw [encodeDict, List.length_append, List.length_append] at h hint
    rw [encodeDict, entries, be_encode_dict, Encoding.after_outBufLen,
      be_encode_str_some (by omega), ok_bind]
    dsimp only
    rw [if_neg (by omega), Encoding.update_after (by rw [List.length_append]; omega),
      Encoding.after_outBufLen, be_encode_node v (by omega) (by omega), ok_bind]
    dsimp only
    rw [if_neg (by omega), Encoding.update_after (by simp only [List.length_append]; omega),
      be_encode_entries d (by omega) (by simp only [List.length_append]; omega)]
    simp only [List.append_assoc]

end

/-! ### Whatever the room -/

theorem be_encode_str_total (s : List UInt8) (outBufLen : Nat) :
    ∃ w, be_encode_str (some s) outBufLen = .ok w := by
  rw [be_encode_str, deref_some, ok_bind]
  dsimp only
  split
  · exact ⟨_, rfl⟩
  · exact ⟨_, rfl⟩

mutual

/-- On the tree of a value `be_encode` returns, whatever the room. -/
theorem be_encode_total (v : Value) (outBufLen : Nat) :
    ∃ w, be_encode (node v) outBufLen = .ok w := by
  by_cases h0 : outBufLen = 0
  · subst h0
    exact ⟨_, be_encode_no_room _⟩
  match v with
  | .str s =>
    obtain ⟨w, hw⟩ := be_encode_str_total s outBufLen
    rw [node, be_encode, if_neg h0, hw, ok_bind]
    dsimp only
    split
    · exact ⟨_, rfl⟩
    · exact ⟨_, rfl⟩
  | .int i =>
    rw [node, be_encode, if_neg h0]
    dsimp only
    split
    · exact ⟨_, rfl⟩
    · exact ⟨_, rfl⟩
  | .list l =>
    rw [node, be_encode, if_neg h0]
    exact be_encode_list_total l _
  | .dict d =>
    rw [node, be_encode, if_neg h0]
    exact be_encode_dict_total d _

theorem be_encode_list_total (l : List Value) (e : Encoding) :
    ∃ w, be_encode_list (nodes l) e = .ok w := by
  match l with
  | [] => exact ⟨_, rfl⟩
  | v :: l =>
    obtain ⟨w, hw⟩ := be_encode_total v e.outBufLen
    rw [nodes, be_encode_list, hw, ok_bind]
    split
    · exact ⟨_, rfl⟩
    · exact be_encode_list_total l _

theorem be_encode_dict_total (d : List (List UInt8 × Value)) (e : Encoding) :
    ∃ w, be_encode_dict (entries d) e = .ok w := by
  match d with
  | [] => exact ⟨_, rfl⟩
  | (k, v) :: d =>
    obtain ⟨w, hw⟩ := be_encode_str_total k e.outBufLen
    obtain ⟨w', hw'⟩ := be_encode_total v (e.update w).outBufLen
    rw [entries, be_encode_dict, hw, ok_bind]
    split
    · exact ⟨_, rfl⟩
    · dsimp only
      rw [hw', ok_bind]
      split
      · exact ⟨_, rfl⟩
      · exact be_encode_dict_total d _

end

/-- What is written fits the room, and what is returned is no more than what is written. -/
structure Written.Fits (w : Written) (room : Nat) : Prop where
  bytes_le : w.bytes.length ≤ room
  ret_le : w.ret ≤ w.bytes.length

/-- `outBuf` is inside of what has been written, the rest of the `outBufLen` bytes is room, and
`sz` is how far `outBuf` has been moved, wrapped around. -/
structure Encoding.Fits (e : Encoding) (outBufLen : Nat) : Prop where
  outBuf_le : e.outBuf ≤ e.bytes.length
  bytes_le : e.bytes.length ≤ outBufLen
  room : e.outBuf + e.outBufLen = outBufLen
  sz : e.sz = Int32.ofInt e.outBuf

namespace Encoding
variable {e : Encoding} {outBufLen : Nat} {w : Written}

theorem fits_start (b : UInt8) (h0 : outBufLen ≠ 0) : (start b outBufLen).Fits outBufLen where
  outBuf_le := Nat.le_refl 1
  bytes_le := show 1 ≤ outBufLen by omega
  room := show 1 + (outBufLen - 1) = outBufLen by omega
  sz := rfl

theorem length_put (text : List UInt8) (he : e.outBuf ≤ e.bytes.length) :
    (e.put text).length = max e.bytes.length (e.outBuf + text.length) := by
  rw [put, List.length_append, List.length_append, List.length_take, List.length_drop]
  omega

/-- What has been written is not taken back, only overwritten. -/
theorem le_length_put (text : List UInt8) (he : e.outBuf ≤ e.bytes.length) :
    e.bytes.length ≤ (e.put text).length :=
  length_put text he ▸ Nat.le_max_left _ _

theorem fits_put {text : List UInt8} (he : e.Fits outBufLen) (h : text.length ≤ e.outBufLen) :
    (e.put text).length ≤ outBufLen := by
  have := he.bytes_le
  have := he.room
  rw [length_put _ he.outBuf_le]
  omega

theorem fits_update (he : e.Fits outBufLen) (hw : w.Fits e.outBufLen) (hret : ¬ w.ret < 0) :
    (e.update w).Fits outBufLen where
  outBuf_le := by
    have := hw.ret_le
    rw [update, length_put _ he.outBuf_le]
    dsimp only
    omega
  bytes_le := fits_put he hw.bytes_le
  room := by
    have := he.room
    have := hw.bytes_le
    have := hw.ret_le
    dsimp only [update]
    omega
  sz := by
    rw [update, he.sz, ofInt_add]
    dsimp only
    congr 1
    omega

theorem fits_failed (he : e.Fits outBufLen) (hw : w.Fits e.outBufLen) :
    Written.Fits ⟨e.put w.bytes, -1⟩ outBufLen :=
  ⟨fits_put he hw.bytes_le, by dsimp only; omega⟩

theorem fits_close (he : e.Fits outBufLen) : e.close.Fits outBufLen := by
  rw [close]
  split
  · exact ⟨he.bytes_le, by dsimp only; omega⟩
  next hroom =>
    refine ⟨fits_put he (by rw [List.length_singleton]; omega), ?_⟩
    have hle : (e.sz + 1).toInt ≤ e.outBuf + 1 := by
      rw [he.sz, show Int32.ofInt e.outBuf + 1 = Int32.ofInt (e.outBuf + 1) by
        rw [Int32.ofInt_add]; rfl]
      exact toInt_ofInt_le (by omega)
    dsimp only
    rw [length_put _ he.outBuf_le, List.length_singleton]
    omega

end Encoding

theorem be_encode_str_fits {str : Option (List UInt8)} {outBufLen : Nat} {w : Written}
    (h : be_encode_str str outBufLen = .ok w) : w.Fits outBufLen := by
  obtain ⟨s, -, h⟩ := bind_eq_ok.mp h
  dsimp only at h
  split at h
  · obtain rfl := Except.ok.inj h
    exact ⟨Nat.zero_le _, by decide⟩
  · obtain rfl := Except.ok.inj h
    exact ⟨by dsimp only; omega, Int.le_refl _⟩

theorem be_encode_str_ret {str : Option (List UInt8)} {outBufLen : Nat} {w : Written}
    (h : be_encode_str str outBufLen = .ok w) : -1 ≤ w.ret := by
  obtain ⟨s, -, h⟩ := bind_eq_ok.mp h
  dsimp only at h
  split at h
  · obtain rfl := Except.ok.inj h
    exact Int.le_refl _
  · obtain rfl := Except.ok.inj h
    dsimp only
    omega

mutual

/-- `be_encode` keeps inside its buffer. -/
theorem be_encode_fits {n : be_node} {outBufLen : Nat} {w : Written}
    (h : be_encode n outBufLen = .ok w) : w.Fits outBufLen := by
  by_cases h0 : outBufLen = 0
  · subst h0
    obtain rfl := Except.ok.inj (be_encode_no_room n ▸ h)
    exact ⟨Nat.le_refl 0, by decide⟩
  match n with
  | .BE_INT i =>
    rw [be_encode, if_neg h0] at h
    dsimp only at h
    split at h
    · obtain rfl := Except.ok.inj h
      exact ⟨Nat.zero_le _, by decide⟩
    · obtain rfl := Except.ok.inj h
      refine ⟨by dsimp only; omega, ?_⟩
      rw [← Int32.ofInt_eq_ofNat]
      exact toInt_ofInt_le (by omega)
  | .BE_STR s =>
    rw [be_encode, if_neg h0] at h
    obtain ⟨w', hw, h⟩ := bind_eq_ok.mp h
    obtain ⟨hbytes, hret⟩ := be_encode_str_fits hw
    dsimp only at h
    split at h
    · obtain rfl := Except.ok.inj h
      exact ⟨hbytes, by dsimp only; omega⟩
    · obtain rfl := Except.ok.inj h
      exact ⟨hbytes, Int.le_trans (toInt_ofInt_le (be_encode_str_ret hw)) hret⟩
  | .BE_LIST l =>
    rw [be_encode, if_neg h0] at h
    exact be_encode_list_fits (Encoding.fits_start 108 h0) h
  | .BE_DICT d =>
    rw [be_encode, if_neg h0] at h
    exact be_encode_dict_fits (Encoding.fits_start 100 h0) h

theorem be_encode_list_fits {l : List be_node} {e : Encoding} {outBufLen : Nat} {w : Written}
    (he : e.Fits outBufLen) (h : be_encode_list l e = .ok w) : w.Fits outBufLen := by
  match l with
  | [] =>
    obtain rfl := Except.ok.inj h
    exact Encoding.fits_close he
  | n :: l =>
    obtain ⟨w₁, hw₁, h⟩ := bind_eq_ok.mp h
    have hfits := be_encode_fits hw₁
    split at h
    · obtain rfl := Except.ok.inj h
      exact Encoding.fits_failed he hfits
    next hret => exact be_encode_list_fits (Encoding.fits_update he hfits hret) h

theorem be_encode_dict_fits {d : List (Option (List UInt8) × be_node)} {e : Encoding}
    {outBufLen : Nat} {w : Written} (he : e.Fits outBufLen) (h : be_encode_dict d e = .ok w) :
    w.Fits outBufLen := by
  match d with
  | [] =>
    obtain rfl := Except.ok.inj h
    exact Encoding.fits_close he
  | (key, val) :: d =>
    obtain ⟨w₁, hw₁, h⟩ := bind_eq_ok.mp h
    have hfits₁ := be_encode_str_fits hw₁
    split at h
    · obtain rfl := Except.ok.inj h
      exact Encoding.fits_failed he hfits₁
    next hret₁ =>
      have he₁ := Encoding.fits_update he hfits₁ hret₁
      obtain ⟨w₂, hw₂, h⟩ := bind_eq_ok.mp h
      have hfits₂ := be_encode_fits hw₂
      split at h
      · obtain rfl := Except.ok.inj h
        exact Encoding.fits_failed he₁ hfits₂
      next hret₂ => exact be_encode_dict_fits (Encoding.fits_update he₁ hfits₂ hret₂) h

end

end TorrentClient
