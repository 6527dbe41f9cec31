import Mathlib

/-! # Memory behind a pointer

A C function is handed pointers, and nothing stops it from reading or writing past
the array a pointer came from.  `Mem` is memory as such a function sees it: the
bytes found at every offset from one pointer on, inside the array and behind it.
The operations below are the library calls that work on pointers (`memcpy`,
`bzero`) and the two idioms for a 32-bit field in network byte order, the store of
`htonl(w)` and `ntohl` of a load.  Each comes with what it writes and with the
frame it leaves alone.
-/
namespace Bytes

/-- The bytes found from a pointer on. -/
abbrev Mem := Nat → UInt8

namespace Mem

/-- The `n` bytes at offsets `off`, `off + 1`, … -/
def slice (m : Mem) (off n : Nat) : List UInt8 :=
  (List.range n).map fun i => m (off + i)

/-- Memory that starts with `bs`; `behind` is whatever comes after it. -/
def ofList (bs : List UInt8) (behind : Mem) : Mem := fun i =>
  if h : i < bs.length then bs[i] else behind (i - bs.length)

/-- `m[off] = b`. -/
def write (m : Mem) (off : Nat) (b : UInt8) : Mem := fun i => if i = off then b else m i

/-- `memcpy(m + off, src + soff, n)`. -/
def memcpy (m : Mem) (off : Nat) (src : Mem) (soff n : Nat) : Mem := fun i =>
  if off ≤ i ∧ i < off + n then src (soff + (i - off)) else m i

/-- `bzero(m, n)`. -/
def bzero (m : Mem) (n : Nat) : Mem := fun i => if i < n then 0 else m i

/-- Byte `k` of `w` in network order, the most significant byte first. -/
def byteBE (w : UInt32) (k : Nat) : UInt8 := UInt8.ofNat (w.toNat / 256 ^ (3 - k))

/-- The number four bytes spell in network order. -/
def wordBE (a b c d : UInt8) : UInt32 :=
  UInt32.ofNat (((a.toNat * 256 + b.toNat) * 256 + c.toNat) * 256 + d.toNat)

/-- `(uint32_t&)m[off] = htonl(w)`. -/
def store32 (m : Mem) (off : Nat) (w : UInt32) : Mem := fun i =>
  if off ≤ i ∧ i < off + 4 then byteBE w (i - off) else m i

/-- `ntohl(*(uint32_t*)&m[off])`. -/
def load32 (m : Mem) (off : Nat) : UInt32 :=
  wordBE (m off) (m (off + 1)) (m (off + 2)) (m (off + 3))

/-! ## Slices -/

variable (m : Mem)

@[simp] theorem slice_length (off n : Nat) : (m.slice off n).length = n := by
  simp [slice]

@[simp] theorem slice_zero (off : Nat) : m.slice off 0 = [] := rfl

theorem getElem_slice {off n i : Nat} (h : i < (m.slice off n).length) :
    (m.slice off n)[i] = m (off + i) := by
  simp [slice]

theorem slice_succ (off n : Nat) : m.slice off (n + 1) = m off :: m.slice (off + 1) n := by
  simp only [slice, List.range_succ_eq_map, List.map_cons, List.map_map, Nat.add_zero]
  refine congrArg (m off :: ·) (List.map_congr_left fun i _ => ?_)
  exact congrArg m (by simp only [Nat.succ_eq_add_one]; omega)

theorem slice_add (off n k : Nat) :
    m.slice off (n + k) = m.slice off n ++ m.slice (off + n) k := by
  induction n generalizing off with
  | zero => simp
  | succ n ih =>
    rw [Nat.add_right_comm, slice_succ, ih, slice_succ, List.cons_append]
    rw [show off + 1 + n = off + (n + 1) from by omega]

/-- Two memories with the same bytes in a range have the same slice there. -/
theorem slice_congr {m m' : Mem} {off off' n : Nat}
    (h : ∀ i, i < n → m (off + i) = m' (off' + i)) : m.slice off n = m'.slice off' n :=
  List.map_congr_left fun i hi => h i (List.mem_range.mp hi)

theorem eq_of_slice_eq {m m' : Mem} {off off' n i : Nat} (h : m.slice off n = m'.slice off' n)
    (hi : i < n) : m (off + i) = m' (off' + i) := by
  have hl : i < (m.slice off n).length := by simpa using hi
  have hr : i < (m'.slice off' n).length := by simpa using hi
  rw [← getElem_slice m hl, ← getElem_slice m' hr]
  simp only [h]

theorem ofList_of_lt {bs : List UInt8} {behind : Mem} {i : Nat} (h : i < bs.length) :
    ofList bs behind i = bs[i] := by
  simp [ofList, h]

/-- What a list was laid out as is read back whole. -/
@[simp] theorem slice_ofList (bs : List UInt8) (behind : Mem) :
    (ofList bs behind).slice 0 bs.length = bs := by
  refine List.ext_getElem (by simp) ?_
  intro i h _
  rw [getElem_slice, Nat.zero_add]
  exact ofList_of_lt _

/-- From an offset to its end, a list laid out in memory is read back as its tail. -/
theorem slice_ofList_drop (bs : List UInt8) (behind : Mem) (off : Nat) :
    (ofList bs behind).slice off (bs.length - off) = bs.drop off := by
  refine List.ext_getElem (by simp) ?_
  intro i h _
  rw [slice_length] at h
  rw [getElem_slice, List.getElem_drop]
  exact ofList_of_lt (by omega)

/-- Memory that starts with the bytes of another. -/
theorem ofList_slice (behind : Mem) {n i : Nat} (h : i < n) :
    ofList (m.slice 0 n) behind i = m i := by
  rw [ofList_of_lt (by rwa [slice_length]), getElem_slice, Nat.zero_add]

/-- A list with zeros behind it, read off memory byte by byte. -/
theorem slice_eq_padded_iff {bs : List UInt8} {n : Nat} (h : bs.length ≤ n) :
    m.slice 0 n = bs ++ List.replicate (n - bs.length) 0 ↔ ∀ p < n, m p = bs.getD p 0 := by
  have hbyte : ∀ p < n, (bs ++ List.replicate (n - bs.length) 0)[p]? = some (bs.getD p 0) := by
    intro p hp
    rcases Nat.lt_or_ge p bs.length with hlt | hge
    · rw [List.getElem?_append_left hlt, List.getD_eq_getElem _ _ hlt,
        List.getElem?_eq_getElem hlt]
    · rw [List.getElem?_append_right hge, List.getElem?_replicate_of_lt (by omega),
        List.getD_eq_default _ _ hge]
  constructor
  · intro heq p hp
    have hsome := hbyte p hp
    rw [← heq, List.getElem?_eq_getElem (by rwa [slice_length]), getElem_slice, Nat.zero_add]
      at hsome
    exact Option.some.inj hsome
  · intro hall
    refine List.ext_getElem? ?_
    intro p
    rcases Nat.lt_or_ge p n with hlt | hge
    · rw [hbyte p hlt, List.getElem?_eq_getElem (by rwa [slice_length]), getElem_slice,
        Nat.zero_add, hall p hlt]
    · rw [List.getElem?_eq_none (by rwa [slice_length]), List.getElem?_eq_none]
      rw [List.length_append, List.length_replicate]
      omega

/-! ## What each operation writes, and its frame -/

@[simp] theorem write_same (off : Nat) (b : UInt8) : m.write off b off = b := by
  simp [write]

theorem write_of_ne {off i : Nat} (b : UInt8) (h : i ≠ off) : m.write off b i = m i := by
  simp [write, h]

theorem memcpy_of_mem {off soff n i : Nat} (src : Mem) (h : off ≤ i ∧ i < off + n) :
    m.memcpy off src soff n i = src (soff + (i - off)) := by
  simp [memcpy, h]

theorem memcpy_of_not_mem {off soff n i : Nat} (src : Mem) (h : ¬ (off ≤ i ∧ i < off + n)) :
    m.memcpy off src soff n i = m i := by
  simp only [memcpy, h, if_false]

theorem bzero_of_lt {n i : Nat} (h : i < n) : m.bzero n i = 0 := by
  simp [bzero, h]

/-- What an array starts with after a copy to its start. -/
theorem slice_memcpy (src : Mem) (soff n : Nat) :
    (m.memcpy 0 src soff n).slice 0 n = src.slice soff n :=
  slice_congr fun i hi => by rw [memcpy_of_mem _ _ (by omega), Nat.zero_add, Nat.sub_zero]

/-- What a cleared array holds after a copy to its start. -/
theorem slice_memcpy_bzero (src : Mem) (soff : Nat) {n k : Nat} (h : k ≤ n) :
    ((m.bzero n).memcpy 0 src soff k).slice 0 n = src.slice soff k ++ List.replicate (n - k) 0 := by
  obtain ⟨r, rfl⟩ := Nat.exists_eq_add_of_le h
  rw [slice_add, Nat.add_sub_cancel_left]
  congr 1
  · exact slice_memcpy _ _ _ _
  · refine List.eq_replicate_iff.mpr ⟨slice_length _ _ _, ?_⟩
    intro b hb
    obtain ⟨i, hi, rfl⟩ := List.mem_map.mp hb
    have hi := List.mem_range.mp hi
    rw [memcpy_of_not_mem _ _ (by omega), bzero_of_lt _ (by omega)]

theorem store32_of_mem {off i : Nat} (w : UInt32) (h : off ≤ i ∧ i < off + 4) :
    m.store32 off w i = byteBE w (i - off) := by
  simp [store32, h]

theorem store32_of_not_mem {off i : Nat} (w : UInt32) (h : ¬ (off ≤ i ∧ i < off + 4)) :
    m.store32 off w i = m i := by
  simp only [store32, h, if_false]

/-! ## Words in network order -/

theorem wordBE_toNat (a b c d : UInt8) :
    (wordBE a b c d).toNat =
      ((a.toNat * 256 + b.toNat) * 256 + c.toNat) * 256 + d.toNat := by
  have ha := a.toNat_lt
  have hb := b.toNat_lt
  have hc := c.toNat_lt
  have hd := d.toNat_lt
  rw [wordBE, UInt32.toNat_ofNat', Nat.mod_eq_of_lt]
  omega

/-- **The four bytes of a word spell the word.** -/
@[simp] theorem wordBE_byteBE (w : UInt32) :
    wordBE (byteBE w 0) (byteBE w 1) (byteBE w 2) (byteBE w 3) = w := by
  have hw := w.toNat_lt
  refine UInt32.toNat_inj.mp ?_
  rw [wordBE_toNat]
  simp only [byteBE, UInt8.toNat_ofNat']
  omega

theorem load32_congr {m m' : Mem} {off : Nat} (h : ∀ i, i < 4 → m (off + i) = m' (off + i)) :
    m.load32 off = m'.load32 off := by
  have h0 := h 0 (by omega)
  simp only [load32, Nat.add_zero] at h0 ⊢
  rw [h0, h 1 (by omega), h 2 (by omega), h 3 (by omega)]

/-- **A stored field is loaded back.** -/
@[simp] theorem load32_store32 (off : Nat) (w : UInt32) : (m.store32 off w).load32 off = w := by
  rw [load32, store32_of_mem m w (by omega), store32_of_mem m w (by omega),
    store32_of_mem m w (by omega), store32_of_mem m w (by omega)]
  simp only [Nat.sub_self, Nat.add_sub_cancel_left, wordBE_byteBE]

/-- A load does not see a store to another field. -/
theorem load32_store32_of_disjoint {off off' : Nat} (w : UInt32)
    (h : off' + 4 ≤ off ∨ off + 4 ≤ off') : (m.store32 off w).load32 off' = m.load32 off' :=
  load32_congr fun i hi => store32_of_not_mem m w (by omega)

/-- A load does not see a byte written elsewhere. -/
theorem load32_write_of_disjoint {off i : Nat} (b : UInt8) (h : i < off ∨ off + 4 ≤ i) :
    (m.write i b).load32 off = m.load32 off :=
  load32_congr fun k hk => write_of_ne m b (by omega)

/-- The bytes `htonl(w)` is stored as. -/
def be32 (w : UInt32) : List UInt8 := [byteBE w 0, byteBE w 1, byteBE w 2, byteBE w 3]

@[simp] theorem be32_length (w : UInt32) : (be32 w).length = 4 := rfl

end Mem

/-! ## `int` -/

/-- `(int)b` for a byte `b`. -/
def intOfByte (b : UInt8) : Int32 := b.toUInt32.toInt32

theorem toInt32_inj {x y : UInt32} : x.toInt32 = y.toInt32 ↔ x = y :=
  ⟨fun h => congrArg Int32.toUInt32 h, congrArg _⟩

theorem intOfByte_inj {a b : UInt8} : intOfByte a = intOfByte b ↔ a = b := by
  refine ⟨fun h => ?_, congrArg _⟩
  have h32 : a.toUInt32 = b.toUInt32 := toInt32_inj.mp h
  have hn : a.toUInt32.toNat = b.toUInt32.toNat := congrArg UInt32.toNat h32
  rw [UInt8.toNat_toUInt32, UInt8.toNat_toUInt32] at hn
  exact UInt8.toNat_inj.mp hn

/-- A word below `2 ^ 31` keeps its value as an `int`. -/
theorem toInt_toInt32 {x : UInt32} (h : x.toNat < 2 ^ 31) : x.toInt32.toInt = x.toNat := by
  have hx : x.toInt32 = Int32.ofNat x.toNat := by
    rw [← UInt32.toInt32_ofNat', UInt32.ofNat_toNat]
  rw [hx, Int32.toInt_ofNat_of_lt h]

/-- A non-negative `int` is the word with the same value. -/
theorem toNat_toUInt32 {x : Int32} (h : 0 ≤ x.toInt) : (x.toUInt32.toNat : Int) = x.toInt := by
  have hlt := x.toInt_lt
  obtain ⟨n, hn⟩ := Int.eq_ofNat_of_zero_le h
  have hx : x = Int32.ofNat n := by
    rw [← Int32.ofInt_eq_ofNat, ← hn, Int32.ofInt_toInt]
  rw [hn, hx, Int32.toUInt32_ofNat', UInt32.toNat_ofNat', Nat.mod_eq_of_lt (by omega)]

/-- A sum that does not overflow. -/
theorem toInt_add_of_lt {a b : Int32} (h0 : 0 ≤ a.toInt + b.toInt)
    (h : a.toInt + b.toInt < 2 ^ 31) : (a + b).toInt = a.toInt + b.toInt := by
  rw [Int32.toInt_add]
  exact Int.bmod_eq_of_le (by omega) (by omega)

end Bytes
