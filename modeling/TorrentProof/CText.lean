import Mathlib
import TorrentProof.Bytes
import TorrentProof.Decimal

/-! # C strings

A C string is the bytes at a pointer up to the first zero byte, wherever that is
found.  The functions here take memory either as a `Mem`, or, where a search has to
end somewhere, as the list of the bytes from the pointer to the end of the mapped
memory; running off that list is `none`.
-/
namespace CText
open Bytes Decimal

/-- The bytes of a string literal, without its terminator. -/
def ascii (s : String) : List UInt8 := s.toList.map fun c => UInt8.ofNat c.toNat

/-- `strcmp(m, s) == 0`, for a literal `s`. -/
def strEq (m : Mem) (s : List UInt8) : Bool := m.slice 0 s.length == s && m s.length == 0

/-- The C string at the start of `bs`. -/
def cstr (bs : List UInt8) : List UInt8 := bs.takeWhile (· != 0)

/-- A C string has no zero byte. -/
theorem zero_not_mem_cstr (bs : List UInt8) : 0 ∉ cstr bs := by
  intro h
  have := List.mem_takeWhile_imp h
  exact absurd this (by decide)

/-- It goes on behind bytes none of which is zero. -/
theorem cstr_append {bs : List UInt8} (h : 0 ∉ bs) (s : List UInt8) :
    cstr (bs ++ s) = bs ++ cstr s := by
  apply List.takeWhile_append_of_pos
  intro b hb
  rw [bne_iff_ne]
  rintro rfl
  exact h hb

/-- A text without a zero byte is its own C string, and no other text is. -/
theorem cstr_eq_self_iff {s : List UInt8} : cstr s = s ↔ 0 ∉ s := by
  constructor
  · intro h
    rw [← h]
    exact zero_not_mem_cstr s
  · intro h
    have hself := cstr_append h []
    rw [List.append_nil] at hself
    exact hself.trans (List.append_nil s)

theorem cstr_eq_self {s : List UInt8} (h : 0 ∉ s) : cstr s = s := cstr_eq_self_iff.mpr h

/-- It ends at a zero byte that is written. -/
theorem cstr_set_zero {bs : List UInt8} {k : Nat} (h : k < bs.length) :
    cstr (bs.set k 0) = cstr (bs.take k) := by
  induction bs generalizing k with
  | nil => simp at h
  | cons b bs ih =>
    cases k with
    | zero => rfl
    | succ k =>
      rw [List.set_cons_succ, List.take_succ_cons, cstr, cstr, List.takeWhile_cons,
        List.takeWhile_cons]
      have htail : cstr (bs.set k 0) = cstr (bs.take k) := ih (by simpa using h)
      rw [cstr, cstr] at htail
      rw [htail]

/-- **Exactly when the C string at the start of memory is the bytes `bs`**: when none of them
is zero, and the one behind them is. -/
theorem cstr_append_eq_iff {bs s : List UInt8} :
    0 ∈ bs ++ s ∧ cstr (bs ++ s) = bs ↔ 0 ∉ bs ∧ s.head? = some 0 := by
  constructor
  · rintro ⟨hmem, heq⟩
    have hbs : 0 ∉ bs := by
      have := zero_not_mem_cstr (bs ++ s)
      rwa [heq] at this
    refine ⟨hbs, ?_⟩
    rw [cstr_append hbs, List.append_right_eq_self] at heq
    cases s with
    | nil => exact absurd hmem (by rwa [List.append_nil])
    | cons b s =>
      by_cases hb : b = 0
      · rw [hb]
        rfl
      · rw [cstr, List.takeWhile_cons_of_pos (by simpa using hb)] at heq
        cases heq
  · rintro ⟨hbs, hhead⟩
    obtain ⟨s, rfl⟩ := List.head?_eq_some_iff.mp hhead
    refine ⟨List.mem_append_right bs List.mem_cons_self, ?_⟩
    rw [cstr_append hbs]
    exact List.append_nil bs

/-- `strcat(dst, src)`: the memory from `dst` on afterwards. -/
def strcat (dst src : List UInt8) : Option (List UInt8) :=
  let joined := cstr dst ++ cstr src
  if 0 ∈ src ∧ 0 ∈ dst ∧ joined.length < dst.length then
    some (joined ++ 0 :: dst.drop (joined.length + 1))
  else none

/-- The array keeps its size. -/
theorem length_strcat {dst src joined : List UInt8} (h : strcat dst src = some joined) :
    joined.length = dst.length := by
  unfold strcat at h
  dsimp only at h
  split at h
  next hfits =>
    obtain rfl := Option.some.inj h
    have := hfits.2.2
    rw [List.length_append, List.length_cons, List.length_drop]
    omega
  · cases h

/-- `isspace(b)`. -/
def isSpace (b : UInt8) : Bool := b == 32 || (9 ≤ b && b ≤ 13)

/-- `strtol(s, NULL, 10)`: behind any white space, a sign and the digits up to
another byte, cut down to what a `long` holds. -/
def strtol (s : List UInt8) : Option Int :=
  let text := s.dropWhile isSpace
  let (sign, digits) := match text with
    | 45 :: digits => (-1, digits)
    | 43 :: digits => (1, digits)
    | digits => ((1 : Int), digits)
  if digits.dropWhile isDigit = [] then none
  else some (max (-2 ^ 63) (min (2 ^ 63 - 1) (sign * value (digits.takeWhile isDigit))))

/-- `atoi(s)`. -/
def atoi (s : List UInt8) : Option Int32 := (strtol s).map Int32.ofInt

/-- `std::string(s).find(pat)`, `none` for `npos`. -/
def find (pat : List UInt8) : List UInt8 → Option Nat
  | [] => if pat = [] then some 0 else none
  | b :: s => if pat.isPrefixOf (b :: s) then some 0 else (find pat s).map (· + 1)

/-- A text is found where it stands. -/
theorem find_isSome {pat s : List UInt8} (h : pat <:+: s) : (find pat s).isSome := by
  induction s with
  | nil =>
    rw [List.infix_nil] at h
    simp [find, h]
  | cons b s ih =>
    rw [find]
    split
    · rfl
    next hprefix =>
      rw [List.isPrefixOf_iff_prefix] at hprefix
      rcases List.infix_cons_iff.mp h with h | h
      · exact absurd h hprefix
      · rw [Option.isSome_map]
        exact ih h

end CText
