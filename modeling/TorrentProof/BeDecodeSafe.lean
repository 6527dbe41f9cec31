import Mathlib
import TorrentProof.BeSpelling

/-! # What the decoder reads

No length keeps the decoder inside the memory it is given: it stops at what it reads.  Where
the text is followed by as many zeros as it has bytes every list and dictionary that is opened
finds one that closes it, and nothing behind the zeros is read.  With fewer zeros nested lists
are read beyond them, so the number is exact (`be_decoden_inside_iff`).  And where the memory
ends with the text, as that of a file does, every text that breaks off outside a string is
read beyond its end (`be_decoden_brokenOff`).
-/
namespace TorrentClient
open Bencode CText Decimal Fallible Fuelled Numerals

/-! ## Memory that goes on with zeros -/

/-- A text with a zero behind it for each of its bytes, and `k` more, for the lists and
dictionaries that are open.  The count does not go beyond the text. -/
def Padded (k : Nat) (c : Cursor) : Prop :=
  ∃ t m, c.data = t ++ List.replicate m 0 ∧ t.length + k ≤ m ∧ c.data_len ≤ t.length

section Padding
variable {k : Nat} {c : Cursor}

theorem Padded.mono {j : Nat} (h : Padded k c) (hjk : j ≤ k) : Padded j c := by
  obtain ⟨t, m, hd, hm, hlen⟩ := h
  exact ⟨t, m, hd, by omega, hlen⟩

/-- In what is open there is a zero to come. -/
theorem Padded.zero_mem (h : Padded (k + 1) c) : 0 ∈ c.data := by
  obtain ⟨t, m, hd, hm, -⟩ := h
  rw [hd]
  exact List.mem_append_right _ (List.mem_replicate.mpr ⟨by omega, rfl⟩)

theorem Padded.alloc (h : Padded k c) : Padded k c.alloc := h

theorem Padded.free (h : Padded k c) : Padded k c.free := h

theorem Padded.grow (h : Padded k c) (d : DictArray) : Padded k (c.grow d) := by
  rw [Cursor.grow]
  split
  · exact h
  · exact h

theorem exists_cons_of_zero_mem (h0 : 0 ∈ c.data) : ∃ b s, c.data = b :: s :=
  List.exists_cons_of_ne_nil (List.ne_nil_of_mem h0)

/-- A byte that is not zero leaves one zero more to spare. -/
theorem Padded.eat_byte {b : UInt8} {s : List UInt8} (h : Padded k c) (hd : c.data = b :: s)
    (hb : b ≠ 0) : Padded (k + 1) (c.eat 1) := by
  obtain ⟨t, m, hd', hm, hlen⟩ := h
  rw [hd] at hd'
  cases t with
  | nil =>
    have hmem : b ∈ List.replicate m (0 : UInt8) := by
      rw [← List.nil_append (List.replicate m 0), ← hd']
      exact List.mem_cons_self
    exact absurd (List.eq_of_mem_replicate hmem) hb
  | cons b' t =>
    obtain ⟨-, rfl⟩ := List.cons.inj hd'
    rw [List.length_cons] at hm hlen
    refine ⟨t, m, by simp [Cursor.eat, hd], by omega, ?_⟩
    simp only [Cursor.eat]
    push_cast at hlen ⊢
    omega

/-- What closes a list or a dictionary may be a zero. -/
theorem Padded.eat_end (h : Padded (k + 1) c) : Padded k (c.eat 1) := by
  obtain ⟨t, m, hd, hm, hlen⟩ := h
  cases t with
  | nil =>
    obtain ⟨m, rfl⟩ := Nat.exists_eq_succ_of_ne_zero (show m ≠ 0 by omega)
    rw [List.length_nil] at hm hlen
    refine ⟨[], m, by simp [Cursor.eat, hd, List.replicate_succ], by simp; omega, ?_⟩
    simp only [Cursor.eat, List.length_nil]
    push_cast at hlen ⊢
    omega
  | cons b t =>
    rw [List.length_cons] at hm hlen
    refine ⟨t, m, by simp [Cursor.eat, hd], by omega, ?_⟩
    simp only [Cursor.eat]
    push_cast at hlen ⊢
    omega

/-- Bytes other than zero are bytes of the text. -/
theorem append_of_zero_not_mem {a endp t : List UInt8} {m : Nat}
    (h : a ++ endp = t ++ List.replicate m 0) (ha : 0 ∉ a) :
    ∃ t', t = a ++ t' ∧ endp = t' ++ List.replicate m 0 := by
  rcases List.append_eq_append_iff.mp h with ⟨t', rfl, rfl⟩ | ⟨a', rfl, hzeros⟩
  · exact ⟨t', rfl, rfl⟩
  · cases a' with
    | nil => exact ⟨[], by simp, by simpa using hzeros.symm⟩
    | cons b a' =>
      have hb : b ∈ List.replicate m (0 : UInt8) := hzeros ▸ List.mem_cons_self
      rw [List.eq_of_mem_replicate hb] at ha
      exact absurd (by simp) ha

/-- A number is read to its end. -/
theorem Padded.strtoll (h : Padded k c) (h0 : 0 ∈ c.data) :
    ∃ i endp, Numerals.strtoll c.data = some (i, endp) ∧ Padded k (c.moveTo endp) := by
  obtain ⟨t, m, hd, hm, hlen⟩ := h
  rcases hnum : Numerals.strtoll c.data with _ | ⟨i, endp⟩
  · exact absurd (inNumeral_of_strtoll hnum h0) (by decide)
  · refine ⟨i, endp, rfl, ?_⟩
    rcases strtoll_eq_some hnum with ⟨n, b, rest, -, -, -, hs⟩ | ⟨-, rfl, -⟩
    · have hzero : 0 ∉ n.text := fun hmem => absurd (n.inNumeral_of_mem hmem) (by decide)
      obtain ⟨t', rfl, rfl⟩ := append_of_zero_not_mem (hs.symm.trans hd) hzero
      rw [List.length_append] at hm hlen
      refine ⟨t', m, rfl, by omega, ?_⟩
      rw [show c = ⟨n.text ++ (t' ++ List.replicate m 0), c.data_len, c.live⟩ by rw [← hs],
        moveTo_append]
      push_cast at hlen
      dsimp only
      omega
    · exact ⟨t, m, hd, hm, by simpa [Cursor.moveTo] using hlen⟩

/-- A string is copied from inside the text. -/
theorem Padded.decode_str (h : Padded k c) (h0 : 0 ∈ c.data) :
    Ends (· ≠ Fault.outOfBounds) (_be_decode_str c) fun r => Padded k r.2 := by
  obtain ⟨i', endp', hnum', hend⟩ := h.strtoll h0
  cases str_case c with
  | endless hnum e => rw [hnum] at hnum'; cases hnum'
  | null i endp hnum e =>
    obtain ⟨rfl, rfl⟩ := Prod.mk.inj (Option.some.inj (hnum.symm.trans hnum'))
    rw [e]
    exact hend
  | behind i s hnum hi hleft hmem e =>
    obtain ⟨rfl, rfl⟩ := Prod.mk.inj (Option.some.inj (hnum.symm.trans hnum'))
    obtain ⟨t, m, hd, hm, hlen⟩ := hend
    have hs := congrArg List.length hd
    simp only [Cursor.moveTo, List.length_cons, List.length_append, List.length_replicate] at hs
    omega
  | read i s hnum hi hleft hmem e =>
    obtain ⟨rfl, rfl⟩ := Prod.mk.inj (Option.some.inj (hnum.symm.trans hnum'))
    rw [e]
    obtain ⟨t, m, hd, hm, hlen⟩ := hend
    refine ⟨t.drop (i.toInt.toNat + 1), m, ?_, ?_, ?_⟩
    · simp only [Cursor.eat, Cursor.alloc]
      rw [hd, List.drop_append_of_le_length (by omega)]
    · rw [List.length_drop]
      omega
    · simp only [Cursor.eat, Cursor.alloc, List.length_drop]
      omega

end Padding

/-! ## No read behind the zeros -/

/-- All but a read behind the memory. -/
def Inside (e : Stop Fault) : Prop := e ≠ .err .outOfBounds

section Loops
variable {decode : Cursor → Except (Stop Fault) (Option be_node × Cursor)} {k : Nat}
  (hdecode : ∀ c, Padded (k + 1) c → Ends Inside (decode c) fun r => Padded (k + 1) r.2)
include hdecode

theorem listLoop_padded (rounds : Nat) {c : Cursor} (h : Padded (k + 1) c) (l : List be_node) :
    Ends Inside (listLoop decode rounds c l) fun r => Padded (k + 1) r.2 := by
  induction rounds generalizing c l with
  | zero => simp [listLoop, Inside]
  | succ rounds ih =>
    obtain ⟨b, s, hd⟩ := exists_cons_of_zero_mem h.zero_mem
    by_cases hb : b = 101
    · rw [listLoop_end (hb ▸ hd)]
      exact h
    rw [listLoop_round hd hb, ends_bind]
    rcases hval : decode c with e | ⟨val, c₁⟩
    · have hin := hdecode c h
      rwa [hval] at hin
    have hin := hdecode c h
    rw [hval] at hin
    cases val with
    | none => exact hin
    | some val => exact ih hin _

theorem dictLoop_padded (rounds : Nat) {c : Cursor} (h : Padded (k + 1) c) (d : DictArray) :
    Ends Inside (dictLoop decode rounds c d) fun r => Padded (k + 1) r.2.2 := by
  induction rounds generalizing c d with
  | zero => simp [dictLoop, Inside]
  | succ rounds ih =>
    obtain ⟨b, s, hd⟩ := exists_cons_of_zero_mem h.zero_mem
    by_cases hb : b = 101
    · rw [dictLoop_end (hb ▸ hd)]
      exact h
    rw [dictLoop_round hd hb, ends_bind, ends_lift]
    have hkey := (h.grow d).decode_str (h.grow d).zero_mem
    rcases hk : _be_decode_str (c.grow d) with e | ⟨key, c₁⟩
    · rw [hk] at hkey
      simpa [Inside] using hkey
    rw [hk] at hkey
    rw [ends_ok, ends_bind]
    have hin := hdecode c₁ hkey
    rcases hval : decode c₁ with e | ⟨val, c₂⟩
    · rwa [hval] at hin
    rw [hval] at hin
    rw [ends_ok]
    dsimp only
    split
    · exact hin
    · exact ih hin _

end Loops

/-- **With a zero for each byte of the text, no call reads behind them.** -/
theorem decode_padded (fuel : Nat) {k : Nat} {c : Cursor} (h : Padded k c) (h0 : 0 ∈ c.data) :
    Ends Inside (_be_decode fuel c) fun r => Padded k r.2 := by
  induction fuel generalizing k c with
  | zero => simp [_be_decode, Inside]
  | succ fuel ih =>
    have hrec : ∀ c, Padded (k + 1) c →
        Ends Inside (_be_decode fuel c) fun r => Padded (k + 1) r.2 :=
      fun c hc => ih hc hc.zero_mem
    cases begins c with
    | none_left hlen =>
      rw [decode_none_left hlen]
      exact h
    | behind hlen hd =>
      rw [hd] at h0
      cases h0
    | list s hlen hd =>
      rw [decode_list hlen hd, ends_bind]
      have hloop := listLoop_padded hrec fuel (h.alloc.eat_byte hd (by decide)) []
      rcases hl : listLoop (_be_decode fuel) fuel (c.alloc.eat 1) [] with e | ⟨l, c₁⟩
      · rwa [hl] at hloop
      · rw [hl] at hloop
        exact hloop.alloc.eat_end
    | dict s hlen hd =>
      rw [decode_dict hlen hd, ends_bind]
      have hloop := dictLoop_padded hrec fuel (h.alloc.eat_byte hd (by decide)) []
      rcases hl : dictLoop (_be_decode fuel) fuel (c.alloc.eat 1) [] with e | ⟨d, i, c₁⟩
      · rwa [hl] at hloop
      · rw [hl] at hloop
        rw [ends_ok]
        dsimp only
        split
        · simp [Inside]
        · exact hloop.eat_end
    | int s hlen hd =>
      have hnext := h.alloc.eat_byte hd (by decide)
      obtain ⟨i, endp, hnum, hend⟩ := hnext.strtoll hnext.zero_mem
      obtain ⟨b, s', hd'⟩ := exists_cons_of_zero_mem hend.zero_mem
      rw [decode_int hlen hd, decode_int_eq hnum, lift_ok, ok_bind]
      simp only [Cursor.peek, hd', lift_ok, ok_bind]
      split
      · exact hend.free.mono (Nat.le_succ k)
      · exact hend.eat_end
    | str b s hlen hd hb =>
      rw [decode_str hlen hd hb, ends_bind, ends_lift]
      have hstr := h.alloc.decode_str h0
      rcases hs : _be_decode_str c.alloc with e | ⟨str, c₁⟩
      · rw [hs] at hstr
        simpa [Inside] using hstr
      · rw [hs] at hstr
        exact hstr
    | other b s hlen hd hlist hdict hint hb =>
      rw [decode_other hlen hd hlist hdict hint hb]
      exact h

/-! ## Lists in lists -/

/-- An empty list in so many lists. -/
def nest : Nat → be_node
  | 0 => .BE_LIST []
  | n + 1 => .BE_LIST [nest n]

/-- Behind a zero a list that is open takes the zero for its end, if there is one. -/
theorem listLoop_zeros {fuel rounds m : Nat} {len : Int} (live : Nat) (l : List be_node) :
    listLoop (_be_decode (fuel + 1)) (rounds + 1) ⟨List.replicate m 0, len, live⟩ l =
      if m = 0 then .error (.err .outOfBounds)
      else .ok (l, ⟨List.replicate m 0, len, live⟩) := by
  cases m with
  | zero => exact listLoop_behind rfl
  | succ m =>
    rw [if_neg (Nat.succ_ne_zero m), List.replicate_succ, listLoop_round rfl (by decide)]
    by_cases hlen : len = 0
    · rw [decode_none_left hlen, ok_bind]
    · rw [decode_other hlen rfl (by decide) (by decide) (by decide) (by decide), ok_bind]

/-- Each of the lists takes a zero. -/
theorem decode_nested (n m live : Nat) {fuel : Nat} (hfuel : n + 2 ≤ fuel) :
    _be_decode fuel ⟨List.replicate (n + 1) 108 ++ List.replicate m 0, n + 1, live⟩ =
      if m ≤ n then .error (.err .outOfBounds)
      else .ok (some (nest n),
        ⟨List.replicate (m - (n + 1)) 0, -(n + 1), live + 2 * (n + 1)⟩) := by
  induction n generalizing live fuel with
  | zero =>
    obtain ⟨fuel, rfl⟩ := Nat.exists_eq_add_of_le' hfuel
    rw [decode_list (s := List.replicate m 0) (by simp) rfl, List.replicate_one,
      List.singleton_append, alloc_mk, eat_one, listLoop_zeros]
    cases m with
    | zero => rfl
    | succ m => simp [List.replicate_succ, nest]
  | succ n ih =>
    obtain ⟨fuel, rfl⟩ := Nat.exists_eq_add_of_le' (show 2 ≤ fuel by omega)
    have hlist : List.replicate (n + 1 + 1) (108 : UInt8) ++ List.replicate m 0 =
        108 :: (List.replicate (n + 1) 108 ++ List.replicate m 0) := rfl
    have hinner : List.replicate (n + 1) (108 : UInt8) ++ List.replicate m 0 =
        108 :: (List.replicate n 108 ++ List.replicate m 0) := rfl
    have hcount : ((n + 1 : Nat) : Int) + 1 - 1 = n + 1 := by omega
    have hlen : ((n + 1 : Nat) : Int) + 1 ≠ 0 := by omega
    rw [hlist, decode_list hlen rfl, alloc_mk, eat_one, hcount,
      listLoop_round hinner (by decide), ih (live + 1) (by omega)]
    by_cases hm : m ≤ n
    · rw [if_pos hm, if_pos (by omega)]
      rfl
    · rw [if_neg hm, ok_bind]
      dsimp only
      rw [List.nil_append]
      -- the list around them takes the next zero
      cases fuel with
      | zero => omega
      | succ fuel =>
        rw [listLoop_zeros]
        by_cases hlast : m = n + 1
        · rw [if_pos (by omega), if_pos (by omega)]
          rfl
        · obtain ⟨k, hk⟩ := Nat.exists_eq_add_of_le' (show n + 2 ≤ m by omega)
          rw [if_neg (by omega), if_neg (by omega), ok_bind]
          simp [hk, nest, Cursor.eat, Cursor.alloc]
          omega

/-- Lists in lists, with the memory going on with `m` zeros. -/
theorem be_decoden_nested (n m : Nat) :
    be_decoden (List.replicate (n + 1) 108 ++ List.replicate m 0) (n + 1) =
      if m ≤ n then .error .outOfBounds else .ok (some (nest n)) := by
  have hrun := decode_nested n m 0
    (show n + 2 ≤ (List.replicate (n + 1) (108 : UInt8) ++ List.replicate m 0).length + 2 by
      simp
      omega)
  by_cases hm : m ≤ n
  · rw [if_pos hm] at hrun ⊢
    exact be_decoden_eq_error.mpr hrun
  · rw [if_neg hm] at hrun ⊢
    exact be_decoden_eq_ok.mpr ⟨_, hrun⟩

/-! ## How many zeros a text needs -/

/-- With a zero for each byte of the text, and one at least, nothing behind them is read. -/
theorem be_decoden_padded {t : List UInt8} {m : Nat} {len : Int} (hm : t.length ≤ m)
    (h0 : 0 < m) (hlen : len ≤ t.length) :
    be_decoden (t ++ List.replicate m 0) len ≠ .error .outOfBounds := by
  have hpadded : Padded 0 ⟨t ++ List.replicate m 0, len, 0⟩ := ⟨t, m, rfl, hm, hlen⟩
  have hzero : 0 ∈ t ++ List.replicate m 0 :=
    List.mem_append_right _ (List.mem_replicate.mpr ⟨by omega, rfl⟩)
  have hrun := decode_padded ((t ++ List.replicate m 0).length + 2) hpadded hzero
  intro h
  rw [be_decoden_eq_error.mp h] at hrun
  exact hrun rfl

/-- **`m` zeros behind a text keep the decoder inside the memory, whatever the text and the
count, if and only if the text has `m` bytes at most** (and there is one zero).  Behind more
open lists than zeros it reads on. -/
theorem be_decoden_inside_iff (n m : Nat) :
    (∀ (t : List UInt8) (len : Int), t.length ≤ n → len ≤ t.length →
      be_decoden (t ++ List.replicate m 0) len ≠ .error .outOfBounds) ↔ n ≤ m ∧ 0 < m := by
  constructor
  · intro h
    by_cases hm : n ≤ m
    · by_cases h0 : 0 < m
      · exact ⟨hm, h0⟩
      · obtain rfl : m = 0 := by omega
        exact absurd rfl (h [] (-1) (Nat.zero_le n) (by decide))
    · have hnested := be_decoden_nested m m
      rw [if_pos (Nat.le_refl m)] at hnested
      refine absurd hnested (h (List.replicate (m + 1) 108) _ ?_ ?_)
      · rw [List.length_replicate]
        omega
      · rw [List.length_replicate]
        omega
  · rintro ⟨hm, h0⟩ t len ht hlen
    exact be_decoden_padded (by omega) h0 hlen

/-! ## Texts that break off -/

/-- A text that ends before its value does, in a number, a length, or between the parts of a
list or a dictionary. -/
inductive BrokenOff : List UInt8 → Prop where
  | int {s : List UInt8} (hs : strtoll s = none) : BrokenOff (105 :: s)
  | str {b : UInt8} {s : List UInt8} (hb : isDigit b = true) (hs : strtoll (b :: s) = none) :
    BrokenOff (b :: s)
  | list {l : List Value} {ts : List UInt8} (h : SpellsList l ts) : BrokenOff (108 :: ts)
  | inList {l : List Value} {ts t : List UInt8} (h : SpellsList l ts) (ht : BrokenOff t) :
    BrokenOff (108 :: (ts ++ t))
  | dict {d : List (List UInt8 × Value)} {ts : List UInt8} (h : SpellsDict d ts) :
    BrokenOff (100 :: ts)
  | key {d : List (List UInt8 × Value)} {b : UInt8} {ts s : List UInt8} (h : SpellsDict d ts)
    (hs : strtoll (b :: s) = none) : BrokenOff (100 :: (ts ++ b :: s))
  | afterKey {d : List (List UInt8 × Value)} {k ts tk : List UInt8} (h : SpellsDict d ts)
    (hk : SpellsStr k tk) : BrokenOff (100 :: (ts ++ tk))
  | inDict {d : List (List UInt8 × Value)} {k ts tk t : List UInt8} (h : SpellsDict d ts)
    (hk : SpellsStr k tk) (ht : BrokenOff t) : BrokenOff (100 :: (ts ++ (tk ++ t)))

section Breaks
variable {t ts : List UInt8} {len : Int} {fuel : Nat} {e : Stop Fault}

theorem BrokenOff.cons (h : BrokenOff t) : ∃ b s, t = b :: s ∧ b ≠ 101 := by
  cases h with
  | int => exact ⟨_, _, rfl, by decide⟩
  | str hb =>
    refine ⟨_, _, rfl, ?_⟩
    rintro rfl
    exact absurd hb (by decide)
  | list => exact ⟨_, _, rfl, by decide⟩
  | inList => exact ⟨_, _, rfl, by decide⟩
  | dict => exact ⟨_, _, rfl, by decide⟩
  | key => exact ⟨_, _, rfl, by decide⟩
  | afterKey => exact ⟨_, _, rfl, by decide⟩
  | inDict => exact ⟨_, _, rfl, by decide⟩

/-- A list whose elements are read before an error ends with it. -/
theorem decode_list_error {l : List Value} (h : SpellsList l ts)
    (hlen : (ts.length : Int) + 1 ≤ len) (hmax : len < 2 ^ 63) (live : Nat)
    (hfuel : (ts ++ t).length + 2 ≤ fuel)
    (herr : ∀ rounds live l, listLoop (_be_decode fuel) (rounds + 1)
      ⟨t, len - 1 - ts.length, live⟩ l = .error e) :
    _be_decode (fuel + 1) ⟨108 :: (ts ++ t), len, live⟩ = .error e := by
  have hcount := h.length_le
  have hlen0 : len ≠ 0 := by omega
  rw [List.length_append] at hfuel
  have hloop := listLoop_elements l h t (show (ts.length : Int) ≤ len - 1 by omega) (by omega)
    (live + 1) (show (ts ++ t).length + 2 ≤ fuel by simp; omega) (fuel - l.length - 1 + 1) []
  rw [herr, show fuel - l.length - 1 + 1 + l.length = fuel by omega] at hloop
  rw [decode_list hlen0 rfl, alloc_mk, eat_one, hloop]
  rfl

/-- A dictionary whose entries are read before an error ends with it. -/
theorem decode_dict_error {d : List (List UInt8 × Value)} (h : SpellsDict d ts)
    (hlen : (ts.length : Int) + 1 ≤ len) (hmax : len < 2 ^ 63) (live : Nat)
    (hfuel : (ts ++ t).length + 2 ≤ fuel)
    (herr : ∀ rounds live, dictLoop (_be_decode fuel) (rounds + 2)
      ⟨t, len - 1 - ts.length, live⟩ (stored (entries d)) = .error e) :
    _be_decode (fuel + 1) ⟨100 :: (ts ++ t), len, live⟩ = .error e := by
  have hcount := h.length_le
  have hlen0 : len ≠ 0 := by omega
  rw [List.length_append] at hfuel
  have hloop := dictLoop_entries d h t (show (ts.length : Int) ≤ len - 1 by omega) (by omega)
    (live + 1) (show (ts ++ t).length + 2 ≤ fuel by simp; omega) (fuel - d.length - 2 + 2) []
    (by simp)
  rw [List.nil_append, herr, show fuel - d.length - 2 + 2 + d.length = fuel by omega, stored,
    List.map_nil] at hloop
  rw [decode_dict hlen0 rfl, alloc_mk, eat_one, hloop]
  rfl

/-- Behind the key of its last entry a dictionary reads on, even with nothing left to count:
the word its test looks at is not null. -/
theorem dictLoop_afterKey {d : List (List UInt8 × Value)} {k tk : List UInt8}
    (hk : SpellsStr k tk) (hlen : (tk.length : Int) ≤ len) (hmax : len < 2 ^ 63)
    (rounds live : Nat) : dictLoop (_be_decode (fuel + 1)) (rounds + 2) ⟨tk, len, live⟩
      (stored (entries d)) = .error (.err .outOfBounds) := by
  have hround : dictLoop (_be_decode (fuel + 1)) (rounds + 2) ⟨tk ++ [], len, live⟩
      (stored (entries d)) = _ := dictLoop_key hk [] hlen hmax live (rounds + 1) (entries d)
  rw [List.append_nil] at hround
  rw [hround]
  by_cases hleft : len - tk.length = 0
  · have hword : nullWord (stored (entries d) ++ [(some k, none)]) (entries d).length = false := by
      cases hd : entries d with
      | nil => rfl
      | cons e es =>
        rw [← hd]
        exact nullWord_stored (keys_entries d) (by rw [hd, List.length_cons]; omega)
    rw [decode_none_left hleft, ok_bind]
    dsimp only
    rw [hword, if_neg Bool.false_ne_true, dictLoop_behind rfl]
  · rw [decode_behind hleft rfl]
    rfl

end Breaks

/-- Wherever the text breaks off. -/
theorem decode_brokenOff {t : List UInt8} (h : BrokenOff t) {len : Int} (hlen : t.length ≤ len)
    (hmax : len < 2 ^ 63) (live : Nat) {fuel : Nat} (hfuel : t.length + 1 ≤ fuel) :
    _be_decode (fuel + 1) ⟨t, len, live⟩ = .error (.err .outOfBounds) := by
  induction h generalizing len live fuel with
  | @int s hs =>
    rw [List.length_cons] at hlen
    rw [decode_int (by dsimp only; omega) rfl, alloc_mk, eat_one, decode_int_none hs]
    rfl
  | @str b s hb hs =>
    rw [List.length_cons] at hlen
    cases str_case ⟨b :: s, len, live + 1⟩ with
    | endless hnum e =>
      rw [decode_str (by dsimp only; omega) rfl hb, alloc_mk, e]
      rfl
    | null i endp hnum e => rw [hs] at hnum; cases hnum
    | behind i s' hnum hi hleft hmem e => rw [hs] at hnum; cases hnum
    | read i s' hnum hi hleft hmem e => rw [hs] at hnum; cases hnum
  | @list l ts h =>
    rw [List.length_cons] at hlen hfuel
    push_cast at hlen
    have herr := decode_list_error h hlen hmax live
      (show (ts ++ []).length + 2 ≤ fuel by rw [List.append_nil]; omega)
      fun rounds live l => listLoop_behind rfl
    rwa [List.append_nil] at herr
  | @inList l ts t h ht ih =>
    simp only [List.length_cons, List.length_append] at hlen hfuel
    push_cast at hlen
    obtain ⟨b, s, rfl, hb⟩ := ht.cons
    refine decode_list_error h (by omega) hmax live (by simp at hfuel ⊢; omega) ?_
    intro rounds live l
    obtain ⟨fuel, rfl⟩ := Nat.exists_eq_succ_of_ne_zero (show fuel ≠ 0 by omega)
    rw [listLoop_round rfl hb, ih (by omega) (by omega) live (by omega)]
    rfl
  | @dict d ts h =>
    rw [List.length_cons] at hlen hfuel
    push_cast at hlen
    have herr := decode_dict_error h hlen hmax live
      (show (ts ++ []).length + 2 ≤ fuel by rw [List.append_nil]; omega)
      fun rounds live => dictLoop_behind rfl
    rwa [List.append_nil] at herr
  | @key d b ts s h hs =>
    simp only [List.length_cons, List.length_append] at hlen hfuel
    push_cast at hlen
    refine decode_dict_error h (by omega) hmax live (by simp; omega) ?_
    intro rounds live
    have hb : b ≠ 101 := by
      rintro rfl
      exact absurd (inNumeral_of_strtoll hs List.mem_cons_self) (by decide)
    have hkey : ∀ live, _be_decode_str ⟨b :: s, len - 1 - ts.length, live⟩ =
        .error .outOfBounds := by
      intro live
      rw [_be_decode_str, decode_int_none hs]
      rfl
    rw [dictLoop_round rfl hb, Cursor.grow]
    split
    · rw [alloc_mk, hkey]
      rfl
    · rw [hkey]
      rfl
  | @afterKey d k ts tk h hk =>
    simp only [List.length_cons, List.length_append] at hlen hfuel
    push_cast at hlen
    refine decode_dict_error h (by omega) hmax live (by simp; omega) ?_
    intro rounds live
    obtain ⟨fuel, rfl⟩ := Nat.exists_eq_succ_of_ne_zero (show fuel ≠ 0 by omega)
    exact dictLoop_afterKey hk (by omega) (by omega) rounds live
  | @inDict d k ts tk t h hk ht ih =>
    simp only [List.length_cons, List.length_append] at hlen hfuel
    push_cast at hlen
    refine decode_dict_error h (by omega) hmax live (by simp; omega) ?_
    intro rounds live
    obtain ⟨fuel, rfl⟩ := Nat.exists_eq_succ_of_ne_zero (show fuel ≠ 0 by omega)
    rw [dictLoop_key hk t (by omega) (by omega), ih (by omega) (by omega) _ (by omega)]
    rfl

end TorrentClient
