import Mathlib
import TorrentProof.MsgProtocol

/-! # What `MSG::decode` reads, and what it leaves alone

`decode` branches on the first byte, then on the length prefix, and only then on the
message id.  One lemma a branch says which fields come from the message, and which
offsets of the message and of `retMsg.block` are touched.  From these follows exactly which
framed messages are decoded inside the arrays (`decode_safe_iff`).
-/
namespace TorrentClient
open Bytes CText
namespace MSG

theorem toInt32_eq_ofNat (x : UInt32) (n : Nat) :
    x.toInt32 = (OfNat.ofNat n : Int32) ↔ x = OfNat.ofNat n := toInt32_inj (y := OfNat.ofNat n)

theorem intOfByte_eq_ofNat (b : UInt8) (n : Nat) (h : n < 256) :
    intOfByte b = Int32.ofNat n ↔ b = UInt8.ofNat n := by
  have hn : intOfByte (UInt8.ofNat n) = Int32.ofNat n := by
    rw [intOfByte, ← UInt32.toInt32_ofNat']
    refine congrArg UInt32.toInt32 (UInt32.toNat_inj.mp ?_)
    rw [UInt8.toNat_toUInt32, UInt8.toNat_ofNat', UInt32.toNat_ofNat']
    omega
  rw [← hn, intOfByte_inj]

/-! ## One lemma a branch -/

section Branches
variable {retMsg : MSG} {chr msg : Mem} {msgLength : Nat}

theorem val_decode_handshake (h : msg 0 = 19) :
    (decode retMsg chr msg msgLength).val =
      if strEq (chr.memcpy 0 msg 1 19) protocolName then retMsg
      else { retMsg with
        hash := retMsg.hash.memcpy 0 msg 28 20, peerId := retMsg.peerId.memcpy 0 msg 48 20 } := by
  simp [decode, h]

theorem val_decode_zero (h : msg 0 ≠ 19) (hL : msg.load32 0 = 0) :
    (decode retMsg chr msg msgLength).val = { retMsg with lenPayload := 0 } := by
  simp [decode, h, hL]

theorem val_decode_one (h : msg 0 ≠ 19) (hL : msg.load32 0 = 1) :
    (decode retMsg chr msg msgLength).val =
      { retMsg with lenPayload := 1, msgType := intOfByte (msg 4) } := by
  simp [decode, h, hL]

theorem val_decode_five (h : msg 0 ≠ 19) (hL : msg.load32 0 = 5) :
    (decode retMsg chr msg msgLength).val =
      { retMsg with lenPayload := 5, msgType := intOfByte (msg 4) } := by
  simp [decode, h, hL]

theorem val_decode_thirteen (h : msg 0 ≠ 19) (hL : msg.load32 0 = 13) :
    (decode retMsg chr msg msgLength).val =
      { retMsg with
        lenPayload := 13, msgType := intOfByte (msg 4), index := (msg.load32 5).toInt32,
        begin := (msg.load32 9).toInt32, reqLen := (msg.load32 13).toInt32 } := by
  simp [decode, h, hL]

/-- The payload lengths for which `decode` has no branch of its own. -/
def Other (msg : Mem) : Prop :=
  msg 0 ≠ 19 ∧ msg.load32 0 ≠ 0 ∧ msg.load32 0 ≠ 1 ∧ msg.load32 0 ≠ 5 ∧ msg.load32 0 ≠ 13

theorem Other.branch (h : Other msg) :
    msg 0 ≠ 19 ∧ (msg.load32 0).toInt32 ≠ 0 ∧ (msg.load32 0).toInt32 ≠ 1 ∧
      (msg.load32 0).toInt32 ≠ 5 ∧ (msg.load32 0).toInt32 ≠ 13 := by
  obtain ⟨h19, h0, h1, h5, h13⟩ := h
  exact ⟨h19, fun e => h0 ((toInt32_eq_ofNat _ 0).mp e), fun e => h1 ((toInt32_eq_ofNat _ 1).mp e),
    fun e => h5 ((toInt32_eq_ofNat _ 5).mp e), fun e => h13 ((toInt32_eq_ofNat _ 13).mp e)⟩

/-- The last branch looks for type 7. -/
theorem intOfByte_eq_seven {b : UInt8} : intOfByte b = 7 ↔ b = 7 :=
  intOfByte_eq_ofNat b 7 (by omega)

theorem val_decode_other_of_ne (h : Other msg) (h7 : msg 4 ≠ 7) :
    (decode retMsg chr msg msgLength).val =
      { retMsg with
        lenPayload := (msg.load32 0).toInt32, msgType := intOfByte (msg 4),
        index := intOfByte (msg 5), begin := intOfByte (msg 9) } := by
  obtain ⟨h19, h0, h1, h5, h13⟩ := h.branch
  have h7' : intOfByte (msg 4) ≠ 7 := mt intOfByte_eq_seven.mp h7
  simp [decode, h19, h0, h1, h5, h13, h7']

theorem val_decode_other_piece (h : Other msg) (h7 : msg 4 = 7) :
    (decode retMsg chr msg msgLength).val =
      { retMsg with
        lenPayload := (msg.load32 0).toInt32, msgType := 7,
        index := intOfByte (msg 5), begin := intOfByte (msg 9),
        block := (retMsg.block.bzero MAX_BLOCK).memcpy 0 msg 14
          ((Int32.ofNat msgLength).toInt - 14).toNat,
        blockLen := Int32.ofInt (msgLength - 14) } := by
  obtain ⟨h19, h0, h1, h5, h13⟩ := h.branch
  have h7' : intOfByte (msg 4) = 7 := intOfByte_eq_seven.mpr h7
  have h75 : (7 : Int32) ≠ 5 := by decide
  simp only [decode, Traced.val_bind, Traced.val_read, Traced.val_load32, h19, h0, h1, h5, h13,
    h7', h75, if_false, if_true, Traced.val_bzero, Traced.val_pure,
    Traced.val_copyLoop _ _ _ _ _ (Nat.le_refl 14), Nat.sub_self]

/-! ## The accesses of each branch -/

variable {P : Access Region → Prop}

theorem within_decode_handshake (h : msg 0 = 19) (hP : ∀ off, off < 68 → P (.read .msg off)) :
    (decode retMsg chr msg msgLength).Within P := by
  simp only [decode, Traced.within_bind, Traced.within_read, Traced.val_read, h, if_true,
    Traced.within_memcpyFrom, Traced.within_ite]
  refine ⟨hP 0 (by omega), fun i hi => hP _ (by omega), ?_⟩
  split
  · exact Traced.within_pure _
  · simp only [Traced.within_pure, and_true]
    exact ⟨fun i hi => hP _ (by omega), fun i hi => hP _ (by omega)⟩

theorem within_decode_zero (h : msg 0 ≠ 19) (hL : msg.load32 0 = 0)
    (hP : ∀ off, off < 4 → P (.read .msg off)) : (decode retMsg chr msg msgLength).Within P := by
  simp only [decode, Traced.within_bind, Traced.within_read, Traced.val_read, h, if_false,
    Traced.within_load32, Traced.val_load32, hL, UInt32.toInt32_ofNat, if_true, Nat.zero_add,
    Traced.within_pure, and_true]
  exact ⟨hP 0 (by omega), hP⟩

/-- The branches for a payload of one and of five bytes look at the id only. -/
theorem within_decode_short (h : msg 0 ≠ 19) (hL : msg.load32 0 = 1 ∨ msg.load32 0 = 5)
    (hP : ∀ off, off < 5 → P (.read .msg off)) : (decode retMsg chr msg msgLength).Within P := by
  rcases hL with hL | hL
  · simp [decode, h, hL]
    exact ⟨hP 0 (by omega), fun i hi => hP i (by omega), hP 4 (by omega)⟩
  · simp [decode, h, hL]
    exact ⟨hP 0 (by omega), fun i hi => hP i (by omega), hP 4 (by omega)⟩

theorem within_decode_thirteen (h : msg 0 ≠ 19) (hL : msg.load32 0 = 13)
    (hP : ∀ off, off < 17 → P (.read .msg off)) : (decode retMsg chr msg msgLength).Within P := by
  simp [decode, h, hL]
  exact ⟨hP 0 (by omega), fun i hi => hP i (by omega), hP 4 (by omega),
    fun i hi => hP _ (by omega), fun i hi => hP _ (by omega), fun i hi => hP _ (by omega)⟩

/-- The reads of the last branch up to the high byte of the index. -/
theorem forall_lt_six_iff {Q : Nat → Prop} :
    (Q 0 ∧ (∀ i, i < 4 → Q i) ∧ Q 4 ∧ Q 5) ↔ ∀ off, off < 6 → Q off := by
  constructor
  · rintro ⟨-, hw, h4, h5⟩ off hoff
    rcases Nat.lt_or_ge off 4 with hlt | hge
    · exact hw off hlt
    · obtain rfl | rfl : off = 4 ∨ off = 5 := by omega
      · exact h4
      · exact h5
  · intro hQ
    exact ⟨hQ 0 (by omega), fun i hi => hQ i (by omega), hQ 4 (by omega), hQ 5 (by omega)⟩

/-- For any other length `decode` reads up to offset 9, however short the message. -/
theorem within_decode_other_of_ne (h : Other msg) (h7 : msg 4 ≠ 7) :
    (decode retMsg chr msg msgLength).Within P ↔
      (∀ off, off < 6 → P (.read .msg off)) ∧ P (.read .msg 9) := by
  obtain ⟨h19, h0, h1, h5, h13⟩ := h.branch
  have h7' : intOfByte (msg 4) ≠ 7 := mt intOfByte_eq_seven.mp h7
  have key := forall_lt_six_iff (Q := fun off => P (.read .msg off))
  simp only [decode, Traced.within_bind, Traced.within_read, Traced.val_read, h19, if_false,
    Traced.within_load32, Traced.val_load32, h0, h1, h5, h13, h7', ite_self, Nat.zero_add,
    Traced.within_pure, and_true]
  constructor
  · rintro ⟨h0, hw, h4, h5, h9⟩
    exact ⟨key.mp ⟨h0, hw, h4, h5⟩, h9⟩
  · rintro ⟨hP, h9⟩
    obtain ⟨h0, hw, h4, h5⟩ := key.mpr hP
    exact ⟨h0, hw, h4, h5, h9⟩

/-- A piece is copied from offset 14 to the end of the message. -/
theorem within_decode_other_piece (h : Other msg) (h7 : msg 4 = 7) :
    (decode retMsg chr msg msgLength).Within P ↔
      ((∀ off, off < 6 → P (.read .msg off)) ∧ P (.read .msg 9)) ∧
        (∀ i, i < MAX_BLOCK → P (.write .block i)) ∧
        ∀ i, i < ((Int32.ofNat msgLength).toInt - 14).toNat →
          P (.read .msg (14 + i)) ∧ P (.write .block i) := by
  obtain ⟨h19, h0, h1, h5, h13⟩ := h.branch
  have h7' : intOfByte (msg 4) = 7 := intOfByte_eq_seven.mpr h7
  have h75 : (7 : Int32) ≠ 5 := by decide
  simp only [decode, Traced.within_bind, Traced.within_read, Traced.val_read, h19, if_false,
    Traced.within_load32, Traced.val_load32, h0, h1, h5, h13, h7', h75, if_true,
    Traced.within_bzero, Traced.within_copyLoop _ _ _ _ _ (Nat.le_refl 14), Nat.sub_self,
    Nat.zero_add, Traced.within_pure, and_true]
  have key := forall_lt_six_iff (Q := fun off => P (.read .msg off))
  constructor
  · rintro ⟨h0, hw, h4, h5, h9, hb, hc⟩
    exact ⟨⟨key.mp ⟨h0, hw, h4, h5⟩, h9⟩, hb, hc⟩
  · rintro ⟨⟨hP, h9⟩, hb, hc⟩
    obtain ⟨h0, hw, h4, h5⟩ := key.mpr hP
    exact ⟨h0, hw, h4, h5, h9, hb, hc⟩

end Branches
/-! ## Which framed messages are decoded inside the arrays -/

/-- An access inside its array, for a message of `msgLength` bytes. -/
def InBounds (msgLength : Nat) : Access Region → Prop
  | .read .msg off => off < msgLength
  | .write .block off => off < MAX_BLOCK
  | _ => True

/-- **`decode` is safe on a message**: whatever its locals hold, every access is
inside its array, and a `blockLen` it sets is the length of a block. -/
def SafeOn (msg : Mem) (msgLength : Nat) : Prop :=
  ∀ retMsg chr, (decode retMsg chr msg msgLength).Within (InBounds msgLength) ∧
    ((decode retMsg chr msg msgLength).val.blockLen ≠ retMsg.blockLen →
      0 ≤ (decode retMsg chr msg msgLength).val.blockLen.toInt ∧
        (decode retMsg chr msg msgLength).val.blockLen.toInt ≤ MAX_BLOCK)

/-- The messages `decode` has room for: with `L` the announced length, either the
first byte is 19, or `L` is one of 0, 1, 5, 13, or `L` is at least 6 and, for a
message of type 7, leaves between 0 and `MAX_BLOCK` bytes from offset 14 on. -/
def FitsDecoder (msg : Mem) : Prop :=
  msg 0 = 19 ∨ (msg.load32 0).toNat ∈ [0, 1, 5, 13] ∨
    6 ≤ (msg.load32 0).toNat ∧
      (msg 4 = 7 → 10 ≤ (msg.load32 0).toNat ∧ (msg.load32 0).toNat ≤ MAX_BLOCK + 10)

instance (msg : Mem) : Decidable (FitsDecoder msg) :=
  inferInstanceAs (Decidable (_ ∨ _ ∨ _))

section Safety
variable {msg : Mem} {msgLength : Nat}

/-- A first byte of 19 announces at least `19 · 2 ^ 24` bytes. -/
theorem load32_ge_of_nineteen (h : msg 0 = 19) : 19 * 2 ^ 24 ≤ (msg.load32 0).toNat := by
  rw [Mem.load32, Mem.wordBE_toNat, h]
  have : (19 : UInt8).toNat = 19 := rfl
  omega

theorem other_of_not_mem (h : msg 0 ≠ 19) (hL : (msg.load32 0).toNat ∉ [0, 1, 5, 13]) :
    Other msg := by
  have key : ∀ n : UInt32, n.toNat ∈ [0, 1, 5, 13] → msg.load32 0 ≠ n :=
    fun n hn he => hL (he ▸ hn)
  exact ⟨h, key 0 (by decide), key 1 (by decide), key 5 (by decide), key 13 (by decide)⟩

variable (hlen : msgLength = 4 + (msg.load32 0).toNat) (hL : (msg.load32 0).toNat < 2 ^ 31 - 4)
include hlen hL

theorem toInt_msgLength : (Int32.ofNat msgLength).toInt = msgLength :=
  Int32.toInt_ofNat_of_lt (by omega)

theorem toInt_blockLen :
    (Int32.ofInt (msgLength - 14)).toInt = (msg.load32 0).toNat - 10 := by
  rw [Int32.toInt_ofInt_of_le (by omega) (by omega)]
  omega

omit hlen hL in
/-- A branch that leaves `blockLen` alone is safe when its accesses are. -/
theorem safe_of_blockLen_eq {retMsg : MSG} {chr : Mem}
    (hacc : (decode retMsg chr msg msgLength).Within (InBounds msgLength))
    (hset : (decode retMsg chr msg msgLength).val.blockLen = retMsg.blockLen) :
    (decode retMsg chr msg msgLength).Within (InBounds msgLength) ∧
      ((decode retMsg chr msg msgLength).val.blockLen ≠ retMsg.blockLen →
        0 ≤ (decode retMsg chr msg msgLength).val.blockLen.toInt ∧
          (decode retMsg chr msg msgLength).val.blockLen.toInt ≤ MAX_BLOCK) := by
  refine ⟨hacc, ?_⟩
  intro hne
  exact absurd hset hne

omit hlen hL in
/-- The reads of the first `n` bytes, when there are so many. -/
theorem inBounds_read {n : Nat} (h : n ≤ msgLength) :
    ∀ off, off < n → InBounds msgLength (.read .msg off) :=
  fun _ hoff => Nat.lt_of_lt_of_le hoff h

/-- The fixed-length branches and the handshake stay inside a framed message, and
set no `blockLen`. -/
theorem safeOn_fixed (h : msg 0 = 19 ∨ (msg.load32 0).toNat ∈ [0, 1, 5, 13]) :
    SafeOn msg msgLength := by
  intro retMsg chr
  by_cases h19 : msg 0 = 19
  · have hge := load32_ge_of_nineteen h19
    refine safe_of_blockLen_eq (within_decode_handshake h19 (inBounds_read (by omega))) ?_
    rw [val_decode_handshake h19]
    split
    · rfl
    · rfl
  have hmem := h.resolve_left h19
  have hw : ∀ n : UInt32, (msg.load32 0).toNat = n.toNat → msg.load32 0 = n :=
    fun n hn => UInt32.toNat_inj.mp hn
  simp only [List.mem_cons, List.not_mem_nil, or_false] at hmem
  rcases hmem with h0 | h1 | h5 | h13
  · apply safe_of_blockLen_eq (within_decode_zero h19 (hw 0 h0) (inBounds_read (by omega)))
    rw [val_decode_zero h19 (hw 0 h0)]
  · apply safe_of_blockLen_eq (within_decode_short h19 (.inl (hw 1 h1)) (inBounds_read (by omega)))
    rw [val_decode_one h19 (hw 1 h1)]
  · apply safe_of_blockLen_eq (within_decode_short h19 (.inr (hw 5 h5)) (inBounds_read (by omega)))
    rw [val_decode_five h19 (hw 5 h5)]
  · apply safe_of_blockLen_eq (within_decode_thirteen h19 (hw 13 h13) (inBounds_read (by omega)))
    rw [val_decode_thirteen h19 (hw 13 h13)]

/-- The remaining lengths: a message of at least ten bytes, and for a piece a block
that starts inside the message and fits `retMsg.block`. -/
theorem safeOn_other_iff (h : Other msg) :
    SafeOn msg msgLength ↔ 6 ≤ (msg.load32 0).toNat ∧
      (msg 4 = 7 → 10 ≤ (msg.load32 0).toNat ∧ (msg.load32 0).toNat ≤ MAX_BLOCK + 10) := by
  have hcount := toInt_msgLength hlen hL
  have hblock := toInt_blockLen hlen hL
  constructor
  · intro hsafe
    obtain ⟨hacc, hset⟩ := hsafe default fun _ => 0
    by_cases h7 : msg 4 = 7
    · obtain ⟨⟨-, h9⟩, -, hcopy⟩ := (within_decode_other_piece h h7).mp hacc
      have h9' : 9 < msgLength := h9
      have hlo : 10 ≤ (msg.load32 0).toNat := by
        by_contra hlt
        rw [val_decode_other_piece h h7] at hset
        -- `default.blockLen` is 0, and a negative `blockLen` is not 0
        have hne : Int32.ofInt (msgLength - 14) ≠ 0 := by
          intro he
          have := congrArg Int32.toInt he
          rw [hblock] at this
          have h0 : (0 : Int32).toInt = 0 := rfl
          omega
        have := (hset hne).1
        simp only [hblock] at this
        omega
      refine ⟨by omega, fun _ => ⟨hlo, ?_⟩⟩
      by_contra hgt
      have : MAX_BLOCK < MAX_BLOCK := (hcopy MAX_BLOCK (by rw [hcount]; omega)).2
      omega
    · have h9 : 9 < msgLength := ((within_decode_other_of_ne h h7).mp hacc).2
      exact ⟨by omega, fun e => absurd e h7⟩
  · rintro ⟨h6, hpiece⟩ retMsg chr
    have hread : (∀ off, off < 6 → InBounds msgLength (.read .msg off)) ∧
        InBounds msgLength (.read .msg 9) :=
      ⟨inBounds_read (by omega), inBounds_read (Nat.le_refl _) 9 (by omega)⟩
    by_cases h7 : msg 4 = 7
    · obtain ⟨hlo, hhi⟩ := hpiece h7
      refine ⟨(within_decode_other_piece h h7).mpr ⟨hread, fun i hi => hi, fun i hi => ?_⟩, ?_⟩
      · rw [hcount] at hi
        exact ⟨show 14 + i < msgLength by omega, show i < MAX_BLOCK by omega⟩
      · rw [val_decode_other_piece h h7]
        simp only [hblock]
        omega
    · apply safe_of_blockLen_eq ((within_decode_other_of_ne h h7).mpr hread)
      rw [val_decode_other_of_ne h h7]

/-- **Exactly which framed messages `decode` is safe on.** -/
theorem decode_safe_iff : SafeOn msg msgLength ↔ FitsDecoder msg := by
  by_cases hfix : msg 0 = 19 ∨ (msg.load32 0).toNat ∈ [0, 1, 5, 13]
  · exact ⟨fun _ => hfix.imp_right .inl, fun _ => safeOn_fixed hlen hL hfix⟩
  · rw [not_or] at hfix
    rw [safeOn_other_iff hlen hL (other_of_not_mem hfix.1 hfix.2)]
    constructor
    · intro h
      exact .inr (.inr h)
    · intro h
      exact (h.resolve_left hfix.1).resolve_left hfix.2

end Safety

theorem decode_safe_choke : SafeOn (Mem.ofList [0, 0, 0, 1, 0] fun _ => 0) 5 :=
  (decode_safe_iff (by decide) (by decide)).mpr (by decide)

/-- A bitfield of one byte is six bytes long, and `decode` looks at the tenth. -/
theorem decode_unsafe_short_bitfield :
    6 = 4 + ((Mem.ofList [0, 0, 0, 2, 5, 128] fun _ => 0).load32 0).toNat ∧
      ((Mem.ofList [0, 0, 0, 2, 5, 128] fun _ => 0).load32 0).toNat < 2 ^ 31 - 4 ∧
      ¬ SafeOn (Mem.ofList [0, 0, 0, 2, 5, 128] fun _ => 0) 6 := by
  refine ⟨by decide, by decide, ?_⟩
  intro hsafe
  have hother : Other (Mem.ofList [0, 0, 0, 2, 5, 128] fun _ => 0) :=
    other_of_not_mem (by decide) (by decide)
  have h6 := ((safeOn_other_iff (by decide) (by decide) hother).mp hsafe).1
  exact absurd h6 (by decide)

end MSG
end TorrentClient
