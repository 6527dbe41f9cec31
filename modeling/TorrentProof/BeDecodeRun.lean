import Mathlib
import TorrentProof.BeDecode
import TorrentProof.BeFree

/-! # Runs of the decoder

What holds of every call that returns, whatever the text: the pointer and the count have
moved together, a value that is returned has taken a byte at least, and the blocks that were
allocated are those of the tree and at most two for each byte read (`decoded`).  From this
the decoder always comes to an end (`ends_decode`), and `be_decoden` is a total function.
-/
namespace TorrentClient
open Bencode Decimal Fallible Fuelled Numerals

/-! ## Cursors on their way -/

/-- From `c` the pointer has come to `c'`, the count with it, and for every byte read there
are at most two new blocks, and `extra` ones. -/
structure Moved (extra : Nat) (c c' : Cursor) : Prop where
  moved : ∃ k : Nat, c'.data = c.data.drop k ∧ c'.data_len = c.data_len - k
  room : c'.live + 2 * c'.data.length ≤ c.live + 2 * c.data.length + extra

section Moves
variable {c c' c'' : Cursor} {m n : Nat}

theorem Moved.refl (c : Cursor) : Moved 0 c c := ⟨⟨0, by simp⟩, Nat.le_refl _⟩

theorem Moved.trans (h : Moved m c c') (h' : Moved n c' c'') : Moved (m + n) c c'' := by
  obtain ⟨⟨k, hdata, hlen⟩, hroom⟩ := h
  obtain ⟨⟨k', hdata', hlen'⟩, hroom'⟩ := h'
  refine ⟨⟨k + k', ?_, ?_⟩, by omega⟩
  · rw [hdata', hdata, List.drop_drop]
  · rw [hlen', hlen]
    push_cast
    omega

theorem Moved.mono (h : Moved m c c') (hmn : m ≤ n) : Moved n c c' :=
  ⟨h.moved, by have := h.room; omega⟩

theorem Moved.length_le (h : Moved n c c') : c'.data.length ≤ c.data.length := by
  obtain ⟨k, hdata, -⟩ := h.moved
  rw [hdata, List.length_drop]
  omega

theorem moved_eat (c : Cursor) (k : Nat) : Moved 0 c (c.eat k) :=
  ⟨⟨k, rfl, rfl⟩, by simp [Cursor.eat]⟩

theorem moved_alloc (c : Cursor) : Moved 1 c c.alloc :=
  ⟨⟨0, by simp [Cursor.alloc]⟩, by simp [Cursor.alloc]; omega⟩

theorem moved_free (c : Cursor) : Moved 0 c c.free :=
  ⟨⟨0, by simp [Cursor.free]⟩, by simp [Cursor.free]⟩

theorem live_grow (c : Cursor) (d : DictArray) :
    (c.grow d).live = c.live + if d = [] then 1 else 0 := by
  by_cases hd : d = []
  · simp [Cursor.grow, hd, Cursor.alloc]
  · simp [Cursor.grow, hd]

theorem moved_grow (c : Cursor) (d : DictArray) : Moved (if d = [] then 1 else 0) c (c.grow d) := by
  by_cases hd : d = []
  · simp only [Cursor.grow, hd, if_true]
    exact moved_alloc c
  · simp only [Cursor.grow, hd, if_false]
    exact .refl c

/-- A byte that is read pays for two blocks. -/
theorem moved_byte {b : UInt8} {s : List UInt8} (hd : c.data = b :: s)
    (h : Moved (n + 2) (c.eat 1) c') : Moved n c c' := by
  have hmoved := (moved_eat c 1).trans h
  refine ⟨hmoved.moved, ?_⟩
  have hroom := h.room
  simp only [Cursor.eat, hd, List.drop_one, List.tail_cons] at hroom
  rw [hd, List.length_cons]
  omega

end Moves

/-! ## Strings -/

/-- A call of `_be_decode_str` that has returned. -/
structure StrDecoded (c : Cursor) (str : Option (List UInt8)) (c' : Cursor) : Prop where
  moved : ∃ k : Nat, c'.data = c.data.drop k ∧ c'.data_len = c.data_len - k
  live_eq : c'.live = c.live + strBlocks str
  length_le : c'.data.length + strBlocks str ≤ c.data.length
  /-- the length has a digit at least -/
  shorter : ∀ b s, c.data = b :: s → isDigit b = true →
    c'.data.length + strBlocks str < c.data.length

section Strings
variable {c c' : Cursor} {str : Option (List UInt8)} {i : Int64} {endp : List UInt8}

theorem moved_moveTo (h : strtoll c.data = some (i, endp)) : Moved 0 c (c.moveTo endp) := by
  rw [← moveTo_of_suffix (suffix_of_strtoll h).1]
  exact moved_eat c _

theorem strDecoded (h : _be_decode_str c = .ok (str, c')) : StrDecoded c str c' := by
  cases str_case c with
  | endless _ e => simp [e] at h
  | behind _ _ _ _ _ _ e => simp [e] at h
  | null i endp hnum e =>
    obtain ⟨rfl, rfl⟩ := Prod.mk.inj (Except.ok.inj (e.symm.trans h))
    refine ⟨(moved_moveTo hnum).moved, rfl, (suffix_of_strtoll hnum).1.length_le, ?_⟩
    intro b s hd hb
    rw [hd] at hnum ⊢
    exact length_of_strtoll hb hnum
  | read i t hnum hi hleft hmem e =>
    obtain ⟨rfl, rfl⟩ := Prod.mk.inj (Except.ok.inj (e.symm.trans h))
    have hsuffix := (suffix_of_strtoll hnum).1.length_le
    have hlen : ((c.moveTo (58 :: t)).alloc.eat (i.toInt.toNat + 1)).data.length =
        t.length - i.toInt.toNat := by
      simp [Cursor.eat, Cursor.alloc, Cursor.moveTo]
    rw [List.length_cons] at hsuffix
    refine ⟨?_, rfl, ?_, ?_⟩
    · exact ((moved_moveTo hnum).trans ((moved_alloc _).trans (moved_eat _ _))).moved
    · rw [hlen, strBlocks]
      simp only [Option.isSome_some, if_true]
      omega
    · intro b s hd hb
      have hshort : (58 :: t).length < c.data.length := by
        rw [hd] at hnum ⊢
        exact length_of_strtoll hb hnum
      rw [hlen, strBlocks]
      rw [List.length_cons] at hshort
      simp only [Option.isSome_some, if_true]
      omega

theorem StrDecoded.room (h : StrDecoded c str c') : Moved 0 c c' := by
  refine ⟨h.moved, ?_⟩
  have := h.live_eq
  have := h.length_le
  omega

end Strings

/-! ## Values -/

/-- A call of `_be_decode` that has returned. -/
structure Decoded (c : Cursor) (n : Option be_node) (c' : Cursor) : Prop where
  moved : Moved 0 c c'
  shorter : n.isSome = true → c'.data.length < c.data.length
  live_ge : c.live + n.elim 0 blocks ≤ c'.live

/-- The blocks of an array, those behind a null value included. -/
def arrayBlocks (d : DictArray) : Nat := (d.map fun e => strBlocks e.1 + e.2.elim 0 blocks).sum

theorem blocksDict_entriesOf (d : DictArray) : blocksDict (entriesOf d) ≤ arrayBlocks d := by
  induction d with
  | nil => exact Nat.zero_le _
  | cons e d ih =>
    obtain ⟨key, _ | val⟩ := e
    · exact Nat.zero_le _
    · simp only [entriesOf, blocksDict, arrayBlocks, List.map_cons, List.sum_cons,
        Option.elim_some]
      exact Nat.add_le_add_left ih _

theorem arrayBlocks_append (d d' : DictArray) :
    arrayBlocks (d ++ d') = arrayBlocks d + arrayBlocks d' := by
  simp [arrayBlocks]

theorem arrayBlocks_take (d : DictArray) (i : Nat) : arrayBlocks (d.take i) ≤ arrayBlocks d := by
  have := arrayBlocks_append (d.take i) (d.drop i)
  rw [List.take_append_drop] at this
  omega

section Loops
variable {decode : Cursor → Except (Stop Fault) (Option be_node × Cursor)}
  (hdecode : ∀ c n c', decode c = .ok (n, c') → Decoded c n c')
include hdecode

theorem listLoop_decoded {rounds : Nat} {c c' : Cursor} {l l' : List be_node}
    (h : listLoop decode rounds c l = .ok (l', c')) :
    Moved 0 c c' ∧ c.live + blocksList l' ≤ c'.live + blocksList l := by
  induction rounds generalizing c l with
  | zero => cases h
  | succ rounds ih =>
    rcases hd : c.data with _ | ⟨b, s⟩
    · rw [listLoop_behind hd] at h
      cases h
    by_cases hb : b = 101
    · rw [listLoop_end (hb ▸ hd)] at h
      obtain ⟨rfl, rfl⟩ := Prod.mk.inj (Except.ok.inj h)
      exact ⟨.refl c, Nat.le_refl _⟩
    rw [listLoop_round hd hb] at h
    obtain ⟨⟨n, c₁⟩, hn, h⟩ := bind_eq_ok.mp h
    have hval := hdecode c n c₁ hn
    have hlive := hval.live_ge
    cases n with
    | none =>
      obtain ⟨rfl, rfl⟩ := Prod.mk.inj (Except.ok.inj h)
      refine ⟨hval.moved, Nat.add_le_add_right ?_ _⟩
      exact hlive
    | some val =>
      obtain ⟨hmoved, hblocks⟩ := ih h
      refine ⟨hval.moved.trans hmoved, ?_⟩
      simp only [Option.elim_some, blocksList_append, blocksList] at hlive hblocks
      omega

theorem dictLoop_decoded {rounds i : Nat} {c c' : Cursor} {d d' : DictArray}
    (h : dictLoop decode rounds c d = .ok (d', i, c')) :
    Moved (if d = [] then 1 else 0) c c' ∧ (d ≠ [] → d' ≠ []) ∧
      c.live + arrayBlocks d' + (if d = [] ∧ d' ≠ [] then 1 else 0) ≤ c'.live + arrayBlocks d := by
  induction rounds generalizing c d with
  | zero => cases h
  | succ rounds ih =>
    rcases hd : c.data with _ | ⟨b, s⟩
    · rw [dictLoop_behind hd] at h
      cases h
    by_cases hb : b = 101
    · rw [dictLoop_end (hb ▸ hd)] at h
      obtain ⟨rfl, hrest⟩ := Prod.mk.inj (Except.ok.inj h)
      obtain ⟨-, rfl⟩ := Prod.mk.inj hrest
      exact ⟨(Moved.refl c).mono (Nat.zero_le _), id, by simp⟩
    rw [dictLoop_round hd hb] at h
    obtain ⟨⟨key, c₁⟩, hkey, h⟩ := bind_eq_ok.mp h
    obtain ⟨⟨val, c₂⟩, hval, h⟩ := bind_eq_ok.mp h
    have hk := strDecoded (lift_eq_ok.mp hkey)
    have hv := hdecode c₁ val c₂ hval
    have hentry := (moved_grow c d).trans (hk.room.trans hv.moved)
    have hgrow := live_grow c d
    have hlive := hk.live_eq
    have hlive' := hv.live_ge
    have hone : arrayBlocks [(key, val)] = strBlocks key + val.elim 0 blocks := by
      simp [arrayBlocks]
    have hne : d ++ [(key, val)] ≠ [] := by simp
    dsimp only at h
    split at h
    · obtain ⟨rfl, hrest⟩ := Prod.mk.inj (Except.ok.inj h)
      obtain ⟨-, rfl⟩ := Prod.mk.inj hrest
      refine ⟨hentry, fun _ => hne, ?_⟩
      rw [arrayBlocks_append, hone]
      simp only [hne, ne_eq, not_false_eq_true, and_true]
      omega
    · obtain ⟨hmoved, hne', hblocks⟩ := ih h
      rw [if_neg hne] at hmoved
      rw [if_neg (fun hboth => hne hboth.1), arrayBlocks_append, hone] at hblocks
      refine ⟨hentry.trans hmoved, fun _ => hne' hne, ?_⟩
      simp only [hne' hne, ne_eq, not_false_eq_true, and_true]
      omega

end Loops

/-- A value that has taken its first byte. -/
theorem Decoded.of_byte {c c' : Cursor} {b : UInt8} {s : List UInt8} {n : Option be_node}
    (hd : c.data = b :: s) (h : Moved 1 (c.alloc.eat 1) c')
    (hlive : c.live + n.elim 0 blocks ≤ c'.live) :
    Decoded c n c' := by
  have hmoved : Moved 0 c c' := by
    refine moved_byte hd ⟨h.moved, ?_⟩
    have := h.room
    simp only [Cursor.alloc, Cursor.eat] at this ⊢
    omega
  refine ⟨hmoved, fun _ => ?_, hlive⟩
  have := h.length_le
  simp only [Cursor.alloc, Cursor.eat, hd, List.drop_one, List.tail_cons] at this
  rw [hd, List.length_cons]
  omega

/-- **What holds of every call that returns.** -/
theorem decoded {fuel : Nat} {c c' : Cursor} {n : Option be_node}
    (h : _be_decode fuel c = .ok (n, c')) : Decoded c n c' := by
  induction fuel generalizing c n c' with
  | zero => cases h
  | succ fuel ih =>
    have hrec : ∀ c n c', _be_decode fuel c = .ok (n, c') → Decoded c n c' := fun _ _ _ => ih
    cases begins c with
    | none_left hlen =>
      rw [decode_none_left hlen] at h
      obtain ⟨rfl, rfl⟩ := Prod.mk.inj (Except.ok.inj h)
      exact ⟨.refl c, by simp, Nat.le_refl _⟩
    | behind hlen hd =>
      rw [decode_behind hlen hd] at h
      cases h
    | list s hlen hd =>
      rw [decode_list hlen hd] at h
      obtain ⟨⟨l, c₁⟩, hloop, h⟩ := bind_eq_ok.mp h
      obtain ⟨rfl, rfl⟩ := Prod.mk.inj (Except.ok.inj h)
      obtain ⟨hmoved, hblocks⟩ := listLoop_decoded hrec hloop
      refine .of_byte hd (hmoved.trans ((moved_alloc c₁).trans (moved_eat _ 1))) ?_
      simp only [Cursor.alloc, Cursor.eat, blocksList, Option.elim_some, blocks] at hblocks ⊢
      omega
    | dict s hlen hd =>
      rw [decode_dict hlen hd] at h
      obtain ⟨⟨d, i, c₁⟩, hloop, h⟩ := bind_eq_ok.mp h
      dsimp only at h
      split at h
      · cases h
      next hne =>
        obtain ⟨rfl, rfl⟩ := Prod.mk.inj (Except.ok.inj h)
        obtain ⟨hmoved, -, hblocks⟩ := dictLoop_decoded hrec hloop
        refine .of_byte hd (hmoved.trans (moved_eat c₁ 1)) ?_
        have := blocksDict_entriesOf (d.take i)
        have := arrayBlocks_take d i
        simp only [Cursor.alloc, Cursor.eat, Option.elim_some, blocks, hne, ne_eq,
          not_false_eq_true, and_self, if_true] at hblocks ⊢
        simp only [arrayBlocks, List.map_nil, List.sum_nil] at *
        omega
    | int s hlen hd =>
      rw [decode_int hlen hd] at h
      obtain ⟨⟨i, c₁⟩, hi, h⟩ := bind_eq_ok.mp h
      obtain ⟨b, -, h⟩ := bind_eq_ok.mp h
      obtain ⟨endp, hnum, rfl⟩ := decode_int_eq_ok.mp (lift_eq_ok.mp hi)
      have hmoved := moved_moveTo hnum
      split at h
      · obtain ⟨rfl, rfl⟩ := Prod.mk.inj (Except.ok.inj h)
        exact .of_byte hd ((hmoved.trans (moved_free _)).mono (Nat.zero_le 1)) (Nat.le_refl _)
      · obtain ⟨rfl, rfl⟩ := Prod.mk.inj (Except.ok.inj h)
        exact .of_byte hd ((hmoved.trans (moved_eat _ 1)).mono (Nat.zero_le 1)) (Nat.le_refl _)
    | str b s hlen hd hb =>
      rw [decode_str hlen hd hb] at h
      obtain ⟨⟨str, c₁⟩, hstr, h⟩ := bind_eq_ok.mp h
      obtain ⟨rfl, rfl⟩ := Prod.mk.inj (Except.ok.inj h)
      have hread := strDecoded (lift_eq_ok.mp hstr)
      have hlive := hread.live_eq
      have hshort := hread.shorter b s hd hb
      simp only [Cursor.alloc] at hlive hshort
      refine ⟨⟨hread.moved, ?_⟩, fun _ => ?_, ?_⟩
      · dsimp only
        omega
      · dsimp only
        omega
      · simp only [Option.elim_some, blocks]
        omega
    | other b s hlen hd hlist hdict hint hb =>
      rw [decode_other hlen hd hlist hdict hint hb] at h
      obtain ⟨rfl, rfl⟩ := Prod.mk.inj (Except.ok.inj h)
      exact ⟨.refl c, by simp, Nat.le_refl _⟩

/-! ## The end of a run -/

/-- A word of the array stays as it is when entries are added. -/
theorem nullWord_append {d : DictArray} {w : Nat} (h : w / 2 < d.length) (d' : DictArray) :
    nullWord (d ++ d') w = nullWord d w := by
  rw [nullWord, nullWord, List.getElem?_append_left h]

/-- The words of the last entry. -/
theorem nullWord_snoc {d : DictArray} {key : Option (List UInt8)} {val : Option be_node}
    (h : key = none ∨ val = none) : ∃ w, (w = 2 * d.length ∨ w = 2 * d.length + 1) ∧
      nullWord (d ++ [(key, val)]) w = true := by
  have hget : (d ++ [(key, val)])[d.length]? = some (key, val) := by simp
  rcases h with rfl | rfl
  · refine ⟨2 * d.length, .inl rfl, ?_⟩
    rw [nullWord, show 2 * d.length / 2 = d.length by omega, hget]
    simp
  · refine ⟨2 * d.length + 1, .inr rfl, ?_⟩
    rw [nullWord, show (2 * d.length + 1) / 2 = d.length by omega, hget]
    simp [Nat.add_mod]

section Termination
variable {decode : Cursor → Except (Stop Fault) (Option be_node × Cursor)} {m : Nat}
  (hdecode : ∀ c n c', decode c = .ok (n, c') → Decoded c n c')
  (hends : ∀ c, c.data.length ≤ m → decode c ≠ .error .fuel)
include hdecode hends

/-- Every element takes a byte. -/
theorem listLoop_ends {rounds : Nat} {c : Cursor} {l : List be_node} (hm : c.data.length ≤ m)
    (h : c.data.length < rounds) : listLoop decode rounds c l ≠ .error .fuel := by
  induction rounds generalizing c l with
  | zero => omega
  | succ rounds ih =>
    rcases hd : c.data with _ | ⟨b, s⟩
    · rw [listLoop_behind hd]
      simp
    by_cases hb : b = 101
    · rw [listLoop_end (hb ▸ hd)]
      simp
    rw [listLoop_round hd hb]
    refine bind_ne_fuel (hends c hm) ?_
    rintro ⟨n, c₁⟩ hn
    cases n with
    | none => simp
    | some val =>
      have hshort : c₁.data.length < c.data.length := (hdecode c _ c₁ hn).shorter rfl
      exact ih (show c₁.data.length ≤ m by omega) (show c₁.data.length < rounds by omega)

/-- A null word is looked at when the array has come so far. -/
theorem dictLoop_ends_of_nullWord {rounds w : Nat} {c : Cursor} {d : DictArray}
    (hm : c.data.length ≤ m) (hw : nullWord d w = true) (hin : w / 2 < d.length)
    (hle : d.length ≤ w) (h : w < rounds + d.length) :
    dictLoop decode rounds c d ≠ .error .fuel := by
  induction rounds generalizing c d with
  | zero => omega
  | succ rounds ih =>
    rcases hd : c.data with _ | ⟨b, s⟩
    · rw [dictLoop_behind hd]
      simp
    by_cases hb : b = 101
    · rw [dictLoop_end (hb ▸ hd)]
      simp
    rw [dictLoop_round hd hb]
    refine bind_ne_fuel (lift_ne_fuel _) ?_
    rintro ⟨key, c₁⟩ hkey
    have hlen₁ := ((moved_grow c d).trans (strDecoded (lift_eq_ok.mp hkey)).room).length_le
    refine bind_ne_fuel (hends c₁ (by omega)) ?_
    rintro ⟨val, c₂⟩ hval
    have hlen₂ := (hdecode c₁ val c₂ hval).moved.length_le
    dsimp only
    split
    · simp
    next hword =>
      have hkeep := nullWord_append hin [(key, val)]
      have hne : d.length ≠ w := by
        rintro rfl
        exact hword (hkeep.trans hw)
      refine ih (by omega) (hkeep.trans hw) ?_ ?_ ?_
      · rw [List.length_append]
        omega
      · rw [List.length_append, List.length_singleton]
        omega
      · rw [List.length_append, List.length_singleton]
        omega

/-- Every entry takes two bytes, or leaves a null word in the array. -/
theorem dictLoop_ends {rounds : Nat} {c : Cursor} {d : DictArray} (hm : c.data.length ≤ m)
    (h : d.length + c.data.length + 2 ≤ rounds) : dictLoop decode rounds c d ≠ .error .fuel := by
  induction rounds generalizing c d with
  | zero => omega
  | succ rounds ih =>
    rcases hd : c.data with _ | ⟨b, s⟩
    · rw [dictLoop_behind hd]
      simp
    by_cases hb : b = 101
    · rw [dictLoop_end (hb ▸ hd)]
      simp
    rw [dictLoop_round hd hb]
    refine bind_ne_fuel (lift_ne_fuel _) ?_
    rintro ⟨key, c₁⟩ hkey
    have hgrow := (moved_grow c d).length_le
    have hlen₁ := (strDecoded (lift_eq_ok.mp hkey)).length_le
    refine bind_ne_fuel (hends c₁ (by omega)) ?_
    rintro ⟨val, c₂⟩ hval
    have hdecoded := hdecode c₁ val c₂ hval
    have hlen₂ := hdecoded.moved.length_le
    dsimp only
    split
    · simp
    next hword =>
      have hsnoc : (d ++ [(key, val)]).length = d.length + 1 := by simp
      by_cases hnull : key = none ∨ val = none
      · obtain ⟨w, hwhich, hw⟩ := nullWord_snoc (d := d) hnull
        have hfirst : d.length ≠ w := by
          rintro rfl
          exact hword hw
        exact dictLoop_ends_of_nullWord hdecode hends (by omega) hw (by omega) (by omega)
          (by omega)
      · rw [not_or] at hnull
        obtain ⟨k, rfl⟩ := Option.ne_none_iff_exists'.mp hnull.1
        have := hdecoded.shorter (Option.isSome_iff_ne_none.mpr hnull.2)
        simp only [strBlocks, Option.isSome_some, if_true] at hlen₁
        exact ih (by omega) (by omega)

end Termination

/-- **The decoder comes to an end**, on any text and with any count. -/
theorem decode_ends {fuel : Nat} {c : Cursor} (h : c.data.length + 2 ≤ fuel) :
    _be_decode fuel c ≠ .error .fuel := by
  induction fuel generalizing c with
  | zero => omega
  | succ fuel ih =>
    have hrec : ∀ c n c', _be_decode fuel c = .ok (n, c') → Decoded c n c' := fun _ _ _ => decoded
    have hends : ∀ c' : Cursor, c'.data.length ≤ fuel - 2 → 2 ≤ fuel →
        _be_decode fuel c' ≠ .error .fuel := fun c' hc' h2 => ih (by omega)
    cases begins c with
    | none_left hlen => simp [decode_none_left hlen]
    | behind hlen hd => simp [decode_behind hlen hd]
    | list s hlen hd =>
      have hs : (c.alloc.eat 1).data.length + 1 = c.data.length := by
        simp [Cursor.eat, Cursor.alloc, hd]
      rw [decode_list hlen hd]
      refine bind_ne_fuel ?_ fun _ _ => by simp
      exact listLoop_ends hrec (fun c' hc' => hends c' hc' (by omega)) (by omega) (by omega)
    | dict s hlen hd =>
      have hs : (c.alloc.eat 1).data.length + 1 = c.data.length := by
        simp [Cursor.eat, Cursor.alloc, hd]
      rw [decode_dict hlen hd]
      refine bind_ne_fuel ?_ ?_
      · exact dictLoop_ends hrec (fun c' hc' => hends c' hc' (by omega)) (by omega)
          (by simp only [List.length_nil]; omega)
      · intro r _
        split <;> simp
    | int s hlen hd =>
      rw [decode_int hlen hd]
      refine bind_ne_fuel (lift_ne_fuel _) fun r _ => bind_ne_fuel (lift_ne_fuel _) fun b _ => ?_
      split <;> simp
    | str b s hlen hd hb =>
      rw [decode_str hlen hd hb]
      exact bind_ne_fuel (lift_ne_fuel _) fun _ _ => by simp
    | other b s hlen hd hlist hdict hint hb => simp [decode_other hlen hd hlist hdict hint hb]

/-! ## More fuel -/

section Fuel
variable {decode decode' : Cursor → Except (Stop Fault) (Option be_node × Cursor)}
  (h : ∀ c, Below (decode c) (decode' c))
include h

theorem listLoop_below {m n : Nat} (hmn : m ≤ n) (c : Cursor) (l : List be_node) :
    Below (listLoop decode m c l) (listLoop decode' n c l) := by
  induction m generalizing n c l with
  | zero => exact below_fuel _
  | succ m ih =>
    obtain ⟨n, rfl⟩ := Nat.exists_eq_succ_of_ne_zero (show n ≠ 0 by omega)
    refine Below.bind (.refl _) fun b => ?_
    split
    · exact .refl _
    · refine (h c).bind fun r => ?_
      obtain ⟨val, c₁⟩ := r
      cases val with
      | none => exact .refl _
      | some val => exact ih (by omega) c₁ _

theorem dictLoop_below {m n : Nat} (hmn : m ≤ n) (c : Cursor) (d : DictArray) :
    Below (dictLoop decode m c d) (dictLoop decode' n c d) := by
  induction m generalizing n c d with
  | zero => exact below_fuel _
  | succ m ih =>
    obtain ⟨n, rfl⟩ := Nat.exists_eq_succ_of_ne_zero (show n ≠ 0 by omega)
    refine Below.bind (.refl _) fun b => ?_
    split
    · exact .refl _
    · refine Below.bind (.refl _) fun k => (h k.2).bind fun v => ?_
      dsimp only
      split
      · exact .refl _
      · exact ih (by omega) v.2 _

end Fuel

/-- **A run with less fuel is the same run**, unless it runs out. -/
theorem decode_below {m n : Nat} (hmn : m ≤ n) (c : Cursor) :
    Below (_be_decode m c) (_be_decode n c) := by
  induction m generalizing n c with
  | zero => exact below_fuel _
  | succ m ih =>
    obtain ⟨n, rfl⟩ := Nat.exists_eq_succ_of_ne_zero (show n ≠ 0 by omega)
    have hrec : ∀ c, Below (_be_decode m c) (_be_decode n c) := ih (by omega)
    cases begins c with
    | none_left hlen =>
      rw [decode_none_left hlen, decode_none_left hlen]
      exact .refl _
    | behind hlen hd =>
      rw [decode_behind hlen hd, decode_behind hlen hd]
      exact .refl _
    | list s hlen hd =>
      rw [decode_list hlen hd, decode_list hlen hd]
      exact (listLoop_below hrec (by omega) _ _).bind fun _ => .refl _
    | dict s hlen hd =>
      rw [decode_dict hlen hd, decode_dict hlen hd]
      exact (dictLoop_below hrec (by omega) _ _).bind fun _ => .refl _
    | int s hlen hd =>
      rw [decode_int hlen hd, decode_int hlen hd]
      exact .refl _
    | str b s hlen hd hb =>
      rw [decode_str hlen hd hb, decode_str hlen hd hb]
      exact .refl _
    | other b s hlen hd hlist hdict hint hb =>
      rw [decode_other hlen hd hlist hdict hint hb, decode_other hlen hd hlist hdict hint hb]
      exact .refl _

/-- **With more fuel than there is text the run ends, and every other such run is the same.** -/
theorem decode_fuel {fuel : Nat} {c : Cursor} (h : c.data.length + 2 ≤ fuel) :
    _be_decode fuel c ≠ .error .fuel ∧
      _be_decode fuel c = _be_decode (c.data.length + 2) c :=
  ⟨decode_ends h, ((decode_below h c).eq (decode_ends (Nat.le_refl _))).symm⟩

theorem decode_fuel_list : _be_decode 10 ⟨CText.ascii "li7ee", 5, 0⟩ ≠ .error .fuel ∧
    _be_decode 10 ⟨CText.ascii "li7ee", 5, 0⟩ = _be_decode 7 ⟨CText.ascii "li7ee", 5, 0⟩ :=
  decode_fuel (by decide)

/-! ## `be_decoden` -/

/-- The call of `_be_decode` on `len` bytes at `data`, with an empty heap. -/
def decodeCall (data : List UInt8) (len : Int) : Except Fault (Option be_node × Cursor) :=
  result (_be_decode (data.length + 2) ⟨data, len, 0⟩) (decode_ends (Nat.le_refl _))

/-- `be_decoden(bencode, bencode_len)`, where the memory at `bencode` is `data`. -/
def be_decoden (data : List UInt8) (len : Int) : Except Fault (Option be_node) :=
  (decodeCall data len).map Prod.fst

section Call
variable {data : List UInt8} {len : Int}

theorem decodeCall_eq_ok {r : Option be_node × Cursor} : decodeCall data len = .ok r ↔
    _be_decode (data.length + 2) ⟨data, len, 0⟩ = .ok r := result_eq_ok

theorem be_decoden_eq_ok {n : Option be_node} : be_decoden data len = .ok n ↔
    ∃ c, _be_decode (data.length + 2) ⟨data, len, 0⟩ = .ok (n, c) := by
  simp only [← decodeCall_eq_ok]
  rw [be_decoden]
  rcases decodeCall data len with e | ⟨n', c⟩
  · simp [Except.map]
  · simp [Except.map]

theorem be_decoden_eq_error {e : Fault} : be_decoden data len = .error e ↔
    _be_decode (data.length + 2) ⟨data, len, 0⟩ = .error (.err e) := by
  have hcall : decodeCall data len = .error e ↔ _ := result_eq_error
  rw [← hcall, be_decoden]
  rcases decodeCall data len with e' | r
  · simp [Except.map]
  · simp [Except.map]

end Call

end TorrentClient
