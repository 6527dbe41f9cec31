import Mathlib
import TorrentProof.Bencode
import TorrentProof.CText
import TorrentProof.KeyedAssign

/-! # Items of `cpp-bencoding`

The repository has a second library for the format, with a class for each kind of value.  Its
dictionaries are maps: they hold a key once, and are walked through in the order of the keys.
So the item of a value (`itemOf`) remembers neither the order of the entries nor those that
are overwritten, and `value_itemOf_iff` says when nothing is lost.
-/
namespace TorrentClient.bencoding
open Bencode CText Decimal Keyed

/-- The order of `unsigned char`, by which strings are compared. -/
scoped instance instLinearOrderUInt8 : LinearOrder UInt8 where
  le_refl := UInt8.le_refl
  le_trans _ _ _ := UInt8.le_trans
  le_antisymm _ _ := UInt8.le_antisymm
  le_total := UInt8.le_total
  lt_iff_le_not_ge a b := by
    rw [UInt8.lt_iff_toNat_lt, UInt8.le_iff_toNat_le, UInt8.le_iff_toNat_le]
    omega
  toDecidableLE := inferInstance

/-- `BItem` and the classes derived from it. -/
inductive BItem where
  | BInteger (value : Int64)
  | BString (value : List UInt8)
  | BList (items : List BItem)
  /-- `itemMap`, a `std::map` ordered by `BStringByValueComparator` -/
  | BDictionary (itemMap : List (List UInt8 × BItem))
  deriving Inhabited

/-! ## Items and values -/

mutual

/-- An item as a value of the format. -/
def BItem.value : BItem → Value
  | .BInteger i => .int i
  | .BString s => .str s
  | .BList items => .list (values items)
  | .BDictionary itemMap => .dict (valueMap itemMap)

def values : List BItem → List Value
  | [] => []
  | i :: items => i.value :: values items

def valueMap : List (List UInt8 × BItem) → List (List UInt8 × Value)
  | [] => []
  | (k, i) :: m => (k, i.value) :: valueMap m

end

mutual

/-- The item of a value: its entries are assigned one after the other. -/
def itemOf : Value → BItem
  | .str s => .BString s
  | .int i => .BInteger i
  | .list l => .BList (itemsOf l)
  | .dict d => .BDictionary (assignAll [] (pairsOf d))

def itemsOf : List Value → List BItem
  | [] => []
  | v :: l => itemOf v :: itemsOf l

def pairsOf : List (List UInt8 × Value) → List (List UInt8 × BItem)
  | [] => []
  | (k, v) :: d => (k, itemOf v) :: pairsOf d

end

mutual

/-- Every dictionary has its keys in order, and each once. -/
def Ordered : Value → Prop
  | .str _ => True
  | .int _ => True
  | .list l => OrderedList l
  | .dict d => Increasing Prod.fst d ∧ OrderedDict d

def OrderedList : List Value → Prop
  | [] => True
  | v :: l => Ordered v ∧ OrderedList l

def OrderedDict : List (List UInt8 × Value) → Prop
  | [] => True
  | (_, v) :: d => Ordered v ∧ OrderedDict d

end

theorem valueMap_eq_map (m : List (List UInt8 × BItem)) :
    valueMap m = m.map fun e => (e.1, e.2.value) := by
  induction m with
  | nil => rfl
  | cons e m ih =>
    rw [List.map_cons, ← ih]
    rfl

theorem pairsOf_eq_map (d : List (List UInt8 × Value)) :
    pairsOf d = d.map fun e => (e.1, itemOf e.2) := by
  induction d with
  | nil => rfl
  | cons e d ih =>
    rw [List.map_cons, ← ih]
    rfl

/-- The order is one of the keys. -/
theorem increasing_pairsOf {d : List (List UInt8 × Value)} :
    Increasing Prod.fst (pairsOf d) ↔ Increasing Prod.fst d := by
  rw [pairsOf_eq_map, Increasing, List.pairwise_map]
  rfl

theorem increasing_valueMap {m : List (List UInt8 × BItem)} :
    Increasing Prod.fst (valueMap m) ↔ Increasing Prod.fst m := by
  rw [valueMap_eq_map, Increasing, List.pairwise_map]
  rfl

theorem orderedDict_iff {d : List (List UInt8 × Value)} :
    OrderedDict d ↔ ∀ e ∈ d, Ordered e.2 := by
  induction d with
  | nil => simp [OrderedDict]
  | cons e d ih =>
    obtain ⟨k, v⟩ := e
    rw [OrderedDict, ih, List.forall_mem_cons]

mutual

/-- **The item of any value is in order.** -/
theorem ordered_itemOf (v : Value) : Ordered (itemOf v).value := by
  match v with
  | .str _ => trivial
  | .int _ => trivial
  | .list l =>
    rw [itemOf, BItem.value, Ordered]
    exact ordered_itemsOf l
  | .dict d =>
    have hkeys : Increasing Prod.fst (assignAll [] (pairsOf d)) :=
      Increasing.assignAll List.Pairwise.nil
    rw [itemOf, BItem.value, Ordered, increasing_valueMap, orderedDict_iff, valueMap_eq_map]
    refine ⟨hkeys, ?_⟩
    rintro e he
    obtain ⟨e', he', rfl⟩ := List.mem_map.mp he
    rcases mem_assignAll he' with h | h
    · cases h
    · exact ordered_pairsOf d _ h

theorem ordered_itemsOf (l : List Value) : OrderedList (values (itemsOf l)) := by
  match l with
  | [] => trivial
  | v :: l => exact ⟨ordered_itemOf v, ordered_itemsOf l⟩

theorem ordered_pairsOf (d : List (List UInt8 × Value)) :
    ∀ e ∈ pairsOf d, Ordered e.2.value := by
  match d with
  | [] =>
    rintro e he
    cases he
  | (k, v) :: d =>
    rw [pairsOf, List.forall_mem_cons]
    exact ⟨ordered_itemOf v, ordered_pairsOf d⟩

end

mutual

/-- A value in order is got back from its item. -/
theorem value_itemOf (v : Value) (h : Ordered v) : (itemOf v).value = v := by
  match v with
  | .str _ => rfl
  | .int _ => rfl
  | .list l =>
    rw [Ordered] at h
    rw [itemOf, BItem.value, values_itemsOf l h]
  | .dict d =>
    rw [Ordered] at h
    rw [itemOf, BItem.value, assignAll_increasing (increasing_pairsOf.mpr h.1), List.nil_append,
      valueMap_pairsOf d h.2]

theorem values_itemsOf (l : List Value) (h : OrderedList l) : values (itemsOf l) = l := by
  match l with
  | [] => rfl
  | v :: l =>
    rw [OrderedList] at h
    rw [itemsOf, values, value_itemOf v h.1, values_itemsOf l h.2]

theorem valueMap_pairsOf (d : List (List UInt8 × Value)) (h : OrderedDict d) :
    valueMap (pairsOf d) = d := by
  match d with
  | [] => rfl
  | (k, v) :: d =>
    rw [OrderedDict] at h
    rw [pairsOf, valueMap, value_itemOf v h.1, valueMap_pairsOf d h.2]

end

/-- **Nothing of a value is lost in its item if and only if its keys are in order.** -/
theorem value_itemOf_iff {v : Value} : (itemOf v).value = v ↔ Ordered v := by
  constructor
  · rintro h
    rw [← h]
    exact ordered_itemOf v
  · exact value_itemOf v

mutual

/-- An item in order is the item of its value. -/
theorem itemOf_value (i : BItem) (h : Ordered i.value) : itemOf i.value = i := by
  match i with
  | .BInteger _ => rfl
  | .BString _ => rfl
  | .BList items =>
    rw [BItem.value, Ordered] at h
    rw [BItem.value, itemOf, itemsOf_values items h]
  | .BDictionary m =>
    rw [BItem.value, Ordered] at h
    have hkeys : Increasing Prod.fst ([] ++ m) := increasing_valueMap.mp h.1
    rw [BItem.value, itemOf, pairsOf_valueMap m h.2, assignAll_increasing hkeys, List.nil_append]

theorem itemsOf_values (items : List BItem) (h : OrderedList (values items)) :
    itemsOf (values items) = items := by
  match items with
  | [] => rfl
  | i :: items =>
    rw [values, OrderedList] at h
    rw [values, itemsOf, itemOf_value i h.1, itemsOf_values items h.2]

theorem pairsOf_valueMap (m : List (List UInt8 × BItem)) (h : OrderedDict (valueMap m)) :
    pairsOf (valueMap m) = m := by
  match m with
  | [] => rfl
  | (k, i) :: m =>
    rw [valueMap, OrderedDict] at h
    rw [valueMap, pairsOf, itemOf_value i h.1, pairsOf_valueMap m h.2]

end

/-! ## `Encoder` -/

/-- `Encoder`. -/
structure Encoder where
  encodedData : List UInt8

namespace Encoder

/-- `visit(BString *)`. -/
def visitString (value encodedData : List UInt8) : List UInt8 :=
  encodedData ++ (render value.length ++ ascii ":" ++ value)

mutual

/-- `visit`, on each class: what `encodedData` is afterwards. -/
def visit : BItem → List UInt8 → List UInt8
  | .BInteger value, encodedData =>
    encodedData ++ (ascii "i" ++ renderInt value.toInt ++ ascii "e")
  | .BString value, encodedData => visitString value encodedData
  | .BList items, encodedData => visitItems items (encodedData ++ ascii "l") ++ ascii "e"
  | .BDictionary itemMap, encodedData =>
    visitEntries itemMap (encodedData ++ ascii "d") ++ ascii "e"

/-- The loop over a list. -/
def visitItems : List BItem → List UInt8 → List UInt8
  | [], encodedData => encodedData
  | item :: items, encodedData => visitItems items (visit item encodedData)

/-- The loop over a dictionary. -/
def visitEntries : List (List UInt8 × BItem) → List UInt8 → List UInt8
  | [], encodedData => encodedData
  | (key, value) :: itemMap, encodedData =>
    visitEntries itemMap (visit value (visitString key encodedData))

end

/-- `Encoder::create()`. -/
def create : Encoder := ⟨[]⟩

/-- `encode(data)`: the text it returns, and the encoder behind it, which keeps the text. -/
def encode (encoder : Encoder) (data : BItem) : List UInt8 × Encoder :=
  let encodedData := visit data encoder.encodedData
  (encodedData, ⟨encodedData⟩)

end Encoder

/-- `bencoding::encode(data)`. -/
def encode (data : BItem) : List UInt8 := (Encoder.create.encode data).1

theorem visitString_eq (value e : List UInt8) :
    Encoder.visitString value e = e ++ encodeStr value := by
  rw [Encoder.visitString, encodeStr, List.append_assoc]
  rfl

mutual

/-- The text of an item is appended. -/
theorem visit_eq (i : BItem) (e : List UInt8) :
    Encoder.visit i e = e ++ Bencode.encode i.value := by
  match i with
  | .BInteger value =>
    rw [Encoder.visit, BItem.value, Bencode.encode]
    rfl
  | .BString value => rw [Encoder.visit, visitString_eq, BItem.value, Bencode.encode]
  | .BList items =>
    rw [Encoder.visit, visitItems_eq, BItem.value, Bencode.encode, List.append_assoc,
      List.append_assoc]
    rfl
  | .BDictionary m =>
    rw [Encoder.visit, visitEntries_eq, BItem.value, Bencode.encode, List.append_assoc,
      List.append_assoc]
    rfl

theorem visitItems_eq (items : List BItem) (e : List UInt8) :
    Encoder.visitItems items e = e ++ encodeList (values items) := by
  match items with
  | [] => exact (List.append_nil e).symm
  | i :: items =>
    rw [Encoder.visitItems, visit_eq i, visitItems_eq items, values, encodeList,
      List.append_assoc]

theorem visitEntries_eq (m : List (List UInt8 × BItem)) (e : List UInt8) :
    Encoder.visitEntries m e = e ++ encodeDict (valueMap m) := by
  match m with
  | [] => exact (List.append_nil e).symm
  | (k, i) :: m =>
    rw [Encoder.visitEntries, visitString_eq, visit_eq i, visitEntries_eq m, valueMap, encodeDict,
      List.append_assoc, List.append_assoc, List.append_assoc]

end

/-- A new encoder writes the text of the value. -/
theorem encode_eq (i : BItem) : encode i = Bencode.encode i.value := visit_eq i []

/-- What an encoder returns for one item after the other. -/
def Encoder.encodeAll (encoder : Encoder) : List BItem → List (List UInt8)
  | [] => []
  | i :: items => (encoder.encode i).1 :: (encoder.encode i).2.encodeAll items

end TorrentClient.bencoding
