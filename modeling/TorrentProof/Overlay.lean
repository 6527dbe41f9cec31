import Mathlib
import TorrentProof.Bytes

/-! # Chunks copied over each other

A body that arrives in chunks is reassembled by copying each chunk behind the one
before.  Here each is copied to the start of the buffer instead.  `overlay` is what
that leaves, and `overlay_eq_flatten_iff` says for which chunks it is the body all
the same: for those where the later chunks are zeros and so is all they cover.
-/
namespace Bytes

/-- Copy each chunk, in order, to the start of `m`. -/
def overlay : List (List UInt8) → Mem → Mem
  | [], m => m
  | chunk :: cs, m => overlay cs (m.memcpy 0 (Mem.ofList chunk fun _ => 0) 0 chunk.length)

/-- The chunks after the first are zeros, and so are the bytes of the first that a
later chunk covers. -/
def Harmless : List (List UInt8) → Prop
  | [] => True
  | chunk :: later =>
    ∀ chunk' ∈ later, (∀ b ∈ chunk', b = 0) ∧ ∀ b ∈ chunk.take chunk'.length, b = 0

instance (chunks : List (List UInt8)) : Decidable (Harmless chunks) :=
  match chunks with
  | [] => inferInstanceAs (Decidable True)
  | chunk :: later =>
    inferInstanceAs (Decidable
      (∀ chunk' ∈ later, (∀ b ∈ chunk', b = 0) ∧ ∀ b ∈ chunk.take chunk'.length, b = 0))

variable {chunks : List (List UInt8)} {m : Mem} {p : Nat}

theorem memcpy_chunk_of_lt {chunk : List UInt8} (h : p < chunk.length) :
    m.memcpy 0 (Mem.ofList chunk fun _ => 0) 0 chunk.length p = chunk[p] := by
  rw [Mem.memcpy_of_mem _ _ (by omega), Nat.zero_add, Nat.sub_zero, Mem.ofList_of_lt h]

theorem memcpy_chunk_of_ge {chunk : List UInt8} (h : chunk.length ≤ p) :
    m.memcpy 0 (Mem.ofList chunk fun _ => 0) 0 chunk.length p = m p :=
  Mem.memcpy_of_not_mem _ _ (by omega)

/-- Behind the longest chunk nothing changes. -/
theorem overlay_of_ge (h : ∀ chunk ∈ chunks, chunk.length ≤ p) : overlay chunks m p = m p := by
  induction chunks generalizing m with
  | nil => rfl
  | cons chunk cs ih =>
    rw [overlay, ih fun chunk' hc' => h chunk' (List.mem_cons_of_mem chunk hc')]
    exact memcpy_chunk_of_ge (h chunk List.mem_cons_self)

/-- Zeros over a zero. -/
theorem overlay_zero (hz : ∀ chunk ∈ chunks, ∀ b ∈ chunk, b = 0) (hm : m p = 0) :
    overlay chunks m p = 0 := by
  induction chunks generalizing m with
  | nil => exact hm
  | cons chunk cs ih =>
    refine ih (fun chunk' hc' => hz chunk' (List.mem_cons_of_mem chunk hc')) ?_
    rcases Nat.lt_or_ge p chunk.length with hlt | hge
    · rw [memcpy_chunk_of_lt hlt]
      exact hz chunk List.mem_cons_self _ (List.getElem_mem hlt)
    · rw [memcpy_chunk_of_ge hge, hm]

/-- Zeros over anything, where one of the chunks reaches. -/
theorem overlay_zero_of_covered (hz : ∀ chunk ∈ chunks, ∀ b ∈ chunk, b = 0)
    (hcov : ∃ chunk ∈ chunks, p < chunk.length) : overlay chunks m p = 0 := by
  induction chunks generalizing m with
  | nil =>
    obtain ⟨chunk, hc, -⟩ := hcov
    exact absurd hc List.not_mem_nil
  | cons chunk cs ih =>
    have hz' := fun chunk' hc' => hz chunk' (List.mem_cons_of_mem chunk hc')
    rcases Nat.lt_or_ge p chunk.length with hlt | hge
    · rw [overlay]
      refine overlay_zero hz' ?_
      rw [memcpy_chunk_of_lt hlt]
      exact hz chunk List.mem_cons_self _ (List.getElem_mem hlt)
    · obtain ⟨chunk', hc', hp⟩ := hcov
      rcases List.mem_cons.mp hc' with rfl | hmem
      · omega
      · exact ih hz' ⟨chunk', hmem, hp⟩

/-- What a byte holds afterwards was there before or is a chunk's byte at the same
position. -/
theorem overlay_mem : overlay chunks m p = m p ∨
    ∃ before chunk after,
      chunks = before ++ chunk :: after ∧ chunk[p]? = some (overlay chunks m p) := by
  induction chunks generalizing m with
  | nil => exact .inl rfl
  | cons chunk cs ih =>
    rcases ih (m := m.memcpy 0 (Mem.ofList chunk fun _ => 0) 0 chunk.length) with h | h
    · rcases Nat.lt_or_ge p chunk.length with hlt | hge
      · refine .inr ⟨[], chunk, cs, rfl, ?_⟩
        rw [overlay, h, memcpy_chunk_of_lt hlt, List.getElem?_eq_getElem hlt]
      · exact .inl (h.trans (memcpy_chunk_of_ge hge))
    · obtain ⟨before, chunk', after, rfl, hp⟩ := h
      exact .inr ⟨chunk :: before, chunk', after, rfl, hp⟩

/-- A chunk's byte is found in the body behind the chunks before it. -/
theorem getD_flatten (before after : List (List UInt8)) {chunk : List UInt8} {b : UInt8}
    (h : chunk[p]? = some b) :
    (before ++ chunk :: after).flatten.getD (before.flatten.length + p) 0 = b := by
  obtain ⟨hlt, rfl⟩ := List.getElem?_eq_some_iff.mp h
  rw [List.flatten_append, List.flatten_cons, List.getD_append_right _ _ _ _ (by omega),
    Nat.add_sub_cancel_left, List.getD_append _ _ _ _ hlt, List.getD_eq_getElem _ _ hlt]

/-- A body of zeros, also behind its end. -/
theorem getD_flatten_zero (hz : ∀ chunk ∈ chunks, ∀ b ∈ chunk, b = 0) :
    chunks.flatten.getD p 0 = 0 := by
  rcases Nat.lt_or_ge p chunks.flatten.length with hlt | hge
  · rw [List.getD_eq_getElem _ _ hlt]
    obtain ⟨chunk, hc, hb⟩ := List.mem_flatten.mp (List.getElem_mem hlt)
    exact hz chunk hc _ hb
  · exact List.getD_eq_default _ _ hge

/-- A body with a byte that is not zero has a last one. -/
theorem exists_last_ne_zero {body : List UInt8} {i : Nat} (h : body.getD i 0 ≠ 0) :
    ∃ q, i ≤ q ∧ body.getD q 0 ≠ 0 ∧ ∀ k, q < k → body.getD k 0 = 0 := by
  have hi : i ≤ body.length := by
    by_contra hgt
    exact h (List.getD_eq_default _ _ (by omega))
  refine ⟨Nat.findGreatest (fun k => body.getD k 0 ≠ 0) body.length,
    Nat.le_findGreatest hi h, Nat.findGreatest_spec (P := fun k => body.getD k 0 ≠ 0) hi h,
    fun k hk => ?_⟩
  rcases Nat.lt_or_ge body.length k with hlt | hge
  · exact List.getD_eq_default _ _ (by omega)
  · exact not_not.mp (Nat.findGreatest_is_greatest hk hge)

section Body
variable {chunk : List UInt8} {later : List (List UInt8)} {cap : Nat}
  (hcap : (chunk :: later).flatten.length ≤ cap)
  (h : ∀ p < cap, overlay (chunk :: later) m p = (chunk :: later).flatten.getD p 0)
include hcap h

/-- If the overlay is the body, the chunks behind the first are zeros: the last byte
of the body that is not zero would come from one of them, and then lie further on. -/
theorem later_zero_of_overlay (hm : ∀ p < cap, m p = 0) (hne : chunk ≠ []) :
    ∀ chunk' ∈ later, ∀ b ∈ chunk', b = 0 := by
  intro chunk' hc' b hb
  by_contra hb0
  obtain ⟨i, hi, rfl⟩ := List.mem_iff_getElem.mp (List.mem_flatten.mpr ⟨chunk', hc', hb⟩)
  have hi0 : (chunk :: later).flatten.getD (chunk.length + i) 0 ≠ 0 := by
    rw [List.flatten_cons, List.getD_append_right _ _ _ _ (by omega), Nat.add_sub_cancel_left,
      List.getD_eq_getElem _ _ hi]
    exact hb0
  obtain ⟨q, hiq, hq0, hlast⟩ := exists_last_ne_zero hi0
  have hqlt : q < (chunk :: later).flatten.length := by
    by_contra hge
    exact hq0 (List.getD_eq_default _ _ (by omega))
  have hover := h q (by omega)
  rcases overlay_mem with hmq | ⟨before, chunk₀, after, hsplit, hbyte⟩
  · rw [hmq, hm q (by omega)] at hover
    exact hq0 hover.symm
  rw [hover] at hbyte
  cases before with
  | nil =>
    -- the first chunk does not reach `q`
    obtain ⟨rfl, -⟩ := List.cons.inj hsplit
    have := (List.getElem?_eq_some_iff.mp hbyte).1
    omega
  | cons chunk₁ before =>
    obtain ⟨rfl, -⟩ := List.cons.inj hsplit
    have hpos : 0 < chunk.length := List.length_pos_iff.mpr hne
    have hfar := getD_flatten (chunk :: before) after hbyte
    rw [← hsplit, hlast _ (by rw [List.flatten_cons, List.length_append]; omega)] at hfar
    exact hq0 hfar.symm

/-- If the overlay is the body, the first chunk is zero where another one reaches. -/
theorem covered_zero_of_overlay (hz : ∀ chunk' ∈ later, ∀ b ∈ chunk', b = 0) :
    ∀ chunk' ∈ later, ∀ b ∈ chunk.take chunk'.length, b = 0 := by
  intro chunk' hc' b hb
  obtain ⟨p, hp, rfl⟩ := List.mem_iff_getElem.mp hb
  rw [List.length_take] at hp
  have hbody : (chunk :: later).flatten.getD p 0 = chunk[p] := by
    rw [List.flatten_cons, List.getD_append _ _ _ _ (by omega), List.getD_eq_getElem]
  have hlen : (chunk :: later).flatten.length = chunk.length + later.flatten.length := by
    rw [List.flatten_cons, List.length_append]
  rw [List.getElem_take, ← hbody, ← h p (by omega)]
  rw [overlay]
  exact overlay_zero_of_covered hz ⟨chunk', hc', by omega⟩

end Body

/-- **Exactly which chunks, copied over each other, leave their concatenation.** -/
theorem overlay_eq_flatten_iff {cap : Nat} (hne : ∀ chunk ∈ chunks, chunk ≠ [])
    (hm : ∀ p < cap, m p = 0) (hcap : chunks.flatten.length ≤ cap) :
    (∀ p < cap, overlay chunks m p = chunks.flatten.getD p 0) ↔ Harmless chunks := by
  cases chunks with
  | nil =>
    constructor
    · intro _
      trivial
    · intro _ p hp
      exact hm p hp
  | cons chunk later =>
    constructor
    · intro h
      have hz := later_zero_of_overlay hcap h hm (hne chunk List.mem_cons_self)
      exact fun chunk' hc' => ⟨hz chunk' hc', covered_zero_of_overlay hcap h hz chunk' hc'⟩
    · intro h p hp
      have hz : ∀ chunk' ∈ later, ∀ b ∈ chunk', b = 0 := fun chunk' hc' => (h chunk' hc').1
      rw [overlay, List.flatten_cons]
      rcases Nat.lt_or_ge p chunk.length with hlt | hge
      · rw [List.getD_append _ _ _ _ hlt, List.getD_eq_getElem _ _ hlt]
        by_cases hcov : ∃ chunk' ∈ later, p < chunk'.length
        · rw [overlay_zero_of_covered hz hcov]
          obtain ⟨chunk', hc', hp'⟩ := hcov
          have hmem : chunk[p] ∈ chunk.take chunk'.length :=
            List.mem_take_iff_getElem.mpr ⟨p, by omega, rfl⟩
          exact ((h chunk' hc').2 _ hmem).symm
        · rw [overlay_of_ge fun chunk' hc' => Nat.le_of_not_lt fun hp' => hcov ⟨chunk', hc', hp'⟩,
            memcpy_chunk_of_lt hlt]
      · rw [List.getD_append_right _ _ _ _ hge, getD_flatten_zero hz]
        refine overlay_zero hz ?_
        rw [memcpy_chunk_of_ge hge, hm p hp]

end Bytes
