import Mathlib
import TorrentProof.CText

/-! # Numbers in the spellings of `strtoll`

`strtoll` takes white space, a sign and any number of digits, and where the number is too
large the nearest a `long long` holds.  A `Numeral` is such a text.  `strtoll_text` and
`strtoll_eq_some` say that it reads numerals and what it does with anything else.
-/
namespace Numerals
open CText Decimal

/-- The `long long` nearest to a number. -/
def saturate (n : Int) : Int64 := Int64.ofInt (max (-2 ^ 63) (min (2 ^ 63 - 1) n))

/-- A sign at the start of a text, and what is behind it. -/
def signOf : List UInt8 → Int × List UInt8
  | 45 :: s => (-1, s)
  | 43 :: s => (1, s)
  | s => (1, s)

/-- `strtoll(s, &endp, 10)`: the number, and the memory from `endp` on.  Without a digit
`endp` is `s`.  `none` where the memory ends before the number does. -/
def strtoll (s : List UInt8) : Option (Int64 × List UInt8) :=
  let text := signOf (s.dropWhile isSpace)
  match text.2.dropWhile isDigit with
  | [] => none
  | b :: rest =>
    if text.2.takeWhile isDigit = [] then some (0, s)
    else some (saturate (text.1 * value (text.2.takeWhile isDigit)), b :: rest)

/-- A sign as it is written: minus, plus or nothing. -/
def signText : Option Bool → List UInt8
  | none => []
  | some false => [43]
  | some true => [45]

/-- White space, possibly a sign, and digits. -/
structure Numeral where
  space : List UInt8
  /-- minus, if there is a sign -/
  sign : Option Bool
  digits : List UInt8
  isSpace_of_mem : ∀ b ∈ space, isSpace b = true
  isDigit_of_mem : ∀ b ∈ digits, isDigit b = true
  digits_ne_nil : digits ≠ []

namespace Numeral

def text (n : Numeral) : List UInt8 := n.space ++ signText n.sign ++ n.digits

/-- The number that is spelled. -/
def number (n : Numeral) : Int := if n.sign = some true then -value n.digits else value n.digits

/-- The number that is read. -/
def read (n : Numeral) : Int64 := saturate n.number

end Numeral

/-! ## Bytes -/

theorem not_isSpace_of_isDigit {b : UInt8} (h : isDigit b = true) : isSpace b = false := by
  rw [isDigit, Bool.and_eq_true, decide_eq_true_iff, decide_eq_true_iff, UInt8.le_iff_toNat_le,
    UInt8.le_iff_toNat_le] at h
  have h48 : 48 ≤ b.toNat := h.1
  rw [isSpace, Bool.or_eq_false_iff, beq_eq_false_iff_ne, Bool.and_eq_false_iff]
  constructor
  · rintro rfl
    exact absurd h48 (by decide)
  · right
    rw [decide_eq_false_iff_not, UInt8.le_iff_toNat_le]
    show ¬ b.toNat ≤ 13
    omega

/-- A text that does not begin with a sign. -/
theorem signOf_of_not_sign {s : List UInt8} (hminus : s.head? ≠ some 45)
    (hplus : s.head? ≠ some 43) : signOf s = (1, s) := by
  refine signOf.eq_3 s ?_ ?_
  · rintro s' rfl
    exact hminus rfl
  · rintro s' rfl
    exact hplus rfl

/-- A digit is no sign. -/
theorem signOf_digit {b : UInt8} {s : List UInt8} (h : isDigit b = true) :
    signOf (b :: s) = (1, b :: s) := by
  apply signOf_of_not_sign
  · simp only [List.head?_cons, ne_eq, Option.some.injEq]
    rintro rfl
    exact absurd h (by decide)
  · simp only [List.head?_cons, ne_eq, Option.some.injEq]
    rintro rfl
    exact absurd h (by decide)

/-- A text is its sign and what is behind it. -/
theorem exists_sign (s : List UInt8) : ∃ sign, s = signText sign ++ (signOf s).2 ∧
    (signOf s).1 = if sign = some true then -1 else 1 := by
  rw [signOf.eq_def]
  split
  · exact ⟨some true, rfl, rfl⟩
  · exact ⟨some false, rfl, rfl⟩
  · exact ⟨none, rfl, rfl⟩

/-! ## Numerals are read -/

namespace Numeral
variable (n : Numeral)

theorem exists_digit : ∃ b ds, n.digits = b :: ds ∧ isDigit b = true := by
  obtain ⟨b, ds, hds⟩ := List.exists_cons_of_ne_nil n.digits_ne_nil
  exact ⟨b, ds, hds, n.isDigit_of_mem b (hds ▸ List.mem_cons_self)⟩

/-- The sign and the digits, taken apart. -/
theorem signOf_text (rest : List UInt8) : ∃ sign : Int,
    signOf (signText n.sign ++ n.digits ++ rest) = (sign, n.digits ++ rest) ∧
      sign * value n.digits = n.number := by
  obtain ⟨b, ds, hds, hb⟩ := n.exists_digit
  rcases hsign : n.sign with _ | minus
  · refine ⟨1, ?_, ?_⟩
    · simp only [signText, List.nil_append, hds, List.cons_append]
      exact signOf_digit hb
    · simp [number, hsign]
  · cases minus with
    | false =>
      refine ⟨1, ?_, ?_⟩
      · simp only [signText]
        rfl
      · simp [number, hsign]
    | true =>
      refine ⟨-1, ?_, ?_⟩
      · simp only [signText]
        rfl
      · simp [number, hsign]

/-- The text goes on with the sign behind the white space. -/
theorem dropWhile_text (rest : List UInt8) :
    (n.text ++ rest).dropWhile isSpace = signText n.sign ++ n.digits ++ rest := by
  obtain ⟨b, ds, hds, hb⟩ := n.exists_digit
  rw [text, List.append_assoc, List.append_assoc, List.append_assoc,
    List.dropWhile_append_of_pos n.isSpace_of_mem, hds]
  rcases hsign : n.sign with _ | minus
  · simp [signText, not_isSpace_of_isDigit hb]
  · cases minus with
    | false =>
      simp only [signText, List.cons_append, List.nil_append]
      exact List.dropWhile_cons_of_neg (by decide)
    | true =>
      simp only [signText, List.cons_append, List.nil_append]
      exact List.dropWhile_cons_of_neg (by decide)

/-- **A numeral is read**, up to a byte that is no digit. -/
theorem strtoll_text {b : UInt8} (hb : isDigit b = false) (rest : List UInt8) :
    strtoll (n.text ++ b :: rest) = some (n.read, b :: rest) := by
  obtain ⟨sign, hsign, hnumber⟩ := n.signOf_text (b :: rest)
  have hdrop : (n.digits ++ b :: rest).dropWhile isDigit = b :: rest := by
    rw [List.dropWhile_append_of_pos n.isDigit_of_mem]
    exact List.dropWhile_cons_of_neg (by simp [hb])
  have htake : (n.digits ++ b :: rest).takeWhile isDigit = n.digits := by
    rw [List.takeWhile_append_of_pos n.isDigit_of_mem, List.takeWhile_cons_of_neg (by simp [hb])]
    exact List.append_nil _
  rw [strtoll]
  simp only [n.dropWhile_text, hsign, hdrop, htake, if_neg n.digits_ne_nil, hnumber]
  rfl

theorem length_text_pos : 0 < n.text.length := by
  obtain ⟨b, ds, hds, -⟩ := n.exists_digit
  rw [text, List.length_append, hds, List.length_cons]
  omega

end Numeral

/-! ## Nothing else is read -/

/-- **Where `strtoll` returns, it has read a numeral up to a byte that is no digit, or it
has found none and stays where it is.** -/
theorem strtoll_eq_some {s rest : List UInt8} {i : Int64} (h : strtoll s = some (i, rest)) :
    (∃ (n : Numeral) (b : UInt8) (rest' : List UInt8), n.read = i ∧ isDigit b = false ∧
      rest = b :: rest' ∧ s = n.text ++ rest) ∨ (i = 0 ∧ rest = s ∧ s ≠ []) := by
  rw [strtoll] at h
  split at h
  · cases h
  next b rest' hdrop =>
    have hb : isDigit b = false := by
      have := List.head_dropWhile_not isDigit (l := (signOf (s.dropWhile isSpace)).2)
        (by rw [hdrop]; simp)
      simpa [hdrop] using this
    split at h
    next hdigits =>
      obtain ⟨rfl, rfl⟩ := Prod.mk.inj (Option.some.inj h)
      refine .inr ⟨rfl, rfl, ?_⟩
      rintro rfl
      cases hdrop
    next hdigits =>
      obtain ⟨rfl, rfl⟩ := Prod.mk.inj (Option.some.inj h)
      obtain ⟨sign, hsign, hfactor⟩ := exists_sign (s.dropWhile isSpace)
      have htext := List.takeWhile_append_dropWhile (p := isDigit)
        (l := (signOf (s.dropWhile isSpace)).2)
      refine .inl ⟨⟨s.takeWhile isSpace, sign, _, fun c hc => List.mem_takeWhile_imp hc,
        fun c hc => List.mem_takeWhile_imp hc, hdigits⟩, b, rest', ?_, hb, rfl, ?_⟩
      · rw [Numeral.read, Numeral.number, hfactor]
        split
        · simp
        · simp
      · rw [Numeral.text, List.append_assoc, List.append_assoc, ← hdrop, htext, ← hsign,
          List.takeWhile_append_dropWhile]

/-- The bytes a number may be made of. -/
def inNumeral (b : UInt8) : Bool := isSpace b || b == 45 || b == 43 || isDigit b

theorem inNumeral_of_mem_signText {sign : Option Bool} {b : UInt8} (h : b ∈ signText sign) :
    inNumeral b = true := by
  rcases sign with _ | _ | _
  · cases h
  · obtain rfl := List.mem_singleton.mp h
    rfl
  · obtain rfl := List.mem_singleton.mp h
    rfl

theorem Numeral.inNumeral_of_mem (n : Numeral) {b : UInt8} (h : b ∈ n.text) :
    inNumeral b = true := by
  rw [Numeral.text, List.mem_append, List.mem_append] at h
  rcases h with (h | h) | h
  · simp [inNumeral, n.isSpace_of_mem b h]
  · exact inNumeral_of_mem_signText h
  · simp [inNumeral, n.isDigit_of_mem b h]

/-- It runs behind the memory only if all that is there may belong to a number. -/
theorem inNumeral_of_strtoll {s : List UInt8} (h : strtoll s = none) {b : UInt8} (hb : b ∈ s) :
    inNumeral b = true := by
  rw [strtoll] at h
  split at h
  next hdigits =>
    rw [List.dropWhile_eq_nil_iff] at hdigits
    obtain ⟨sign, hsign, -⟩ := exists_sign (s.dropWhile isSpace)
    rw [← List.takeWhile_append_dropWhile (p := isSpace) (l := s), hsign, List.mem_append,
      List.mem_append] at hb
    rcases hb with hb | hb | hb
    · simp [inNumeral, List.mem_takeWhile_imp hb]
    · exact inNumeral_of_mem_signText hb
    · simp [inNumeral, hdigits b hb]
  next =>
    split at h
    · cases h
    · cases h

/-- Where it returns, it returns an end of the text, and not behind it. -/
theorem suffix_of_strtoll {s rest : List UInt8} {i : Int64} (h : strtoll s = some (i, rest)) :
    rest <:+ s ∧ rest ≠ [] := by
  rcases strtoll_eq_some h with ⟨n, b, rest', -, -, rfl, rfl⟩ | ⟨-, rfl, hne⟩
  · exact ⟨List.suffix_append _ _, by simp⟩
  · exact ⟨List.suffix_refl _, hne⟩

/-- At a byte that begins no numeral nothing is read. -/
theorem strtoll_of_not_begin {b : UInt8} (hspace : isSpace b = false) (hminus : b ≠ 45)
    (hplus : b ≠ 43) (hdigit : isDigit b = false) (rest : List UInt8) :
    strtoll (b :: rest) = some (0, b :: rest) := by
  have hsign : signOf (b :: rest) = (1, b :: rest) :=
    signOf_of_not_sign (by simpa using hminus) (by simpa using hplus)
  rw [strtoll, List.dropWhile_cons_of_neg (by simp [hspace]), hsign]
  simp [hdigit]

/-- Behind a text that begins with a digit there is less left. -/
theorem length_of_strtoll {b : UInt8} {s rest : List UInt8} {i : Int64} (hb : isDigit b = true)
    (h : strtoll (b :: s) = some (i, rest)) : rest.length < (b :: s).length := by
  have hdrop : (b :: s).dropWhile isSpace = b :: s :=
    List.dropWhile_cons_of_neg (by simp [not_isSpace_of_isDigit hb])
  rw [strtoll, hdrop, signOf_digit hb] at h
  simp only [List.dropWhile_cons_of_pos hb, List.takeWhile_cons_of_pos hb] at h
  split at h
  · cases h
  next b' rest' hrest =>
    rw [if_neg (List.cons_ne_nil _ _)] at h
    obtain ⟨-, rfl⟩ := Prod.mk.inj (Option.some.inj h)
    have := (List.dropWhile_suffix isDigit (l := s)).length_le
    rw [hrest] at this
    rw [List.length_cons (a := b)]
    omega

/-! ## The numeral of a number -/

/-- A number without a sign. -/
def ofNat (k : Nat) : Numeral :=
  ⟨[], none, render k, nofun, fun _ => isDigit_render, render_ne_nil k⟩

/-- A number as it is printed. -/
def ofInt (i : Int) : Numeral :=
  ⟨[], if i < 0 then some true else none, render i.natAbs, nofun, fun _ => isDigit_render,
    render_ne_nil i.natAbs⟩

theorem text_ofInt (i : Int) : (ofInt i).text = renderInt i := by
  rw [renderInt]
  by_cases h : i < 0
  · simp [ofInt, Numeral.text, signText, h]
  · simp [ofInt, Numeral.text, signText, h]

theorem number_ofNat (k : Nat) : (ofNat k).number = k := by
  simp [ofNat, Numeral.number]

theorem number_ofInt (i : Int) : (ofInt i).number = i := by
  by_cases h : i < 0
  · simp only [ofInt, Numeral.number, h, if_true, value_render]
    omega
  · simp only [ofInt, Numeral.number, h, if_false, reduceCtorEq, value_render]
    omega

/-- White space is left out, and so are zeros in front of the number. -/
def Numeral.Plain (n : Numeral) : Prop :=
  n.space = [] ∧ (n.digits = [48] ∨ n.digits.head? ≠ some 48)

/-- A number that is printed does not begin with a zero, unless it is zero. -/
theorem head_renderAux {fuel n : Nat} (h0 : 0 < n) (h : n ≤ fuel) :
    (renderAux fuel n).head? ≠ some 48 := by
  induction fuel generalizing n with
  | zero => omega
  | succ fuel ih =>
    rw [renderAux]
    split
    next hlt =>
      have hdigit := toNat_digit hlt
      intro hhead
      have h48 : (48 : UInt8).toNat = 48 := rfl
      rw [Option.some.inj hhead] at hdigit
      omega
    · rw [List.head?_append_of_ne_nil _ (renderAux_ne_nil fuel (n / 10))]
      exact ih (by omega) (by omega)

theorem head_render (n : Nat) : render n = [48] ∨ (render n).head? ≠ some 48 := by
  rcases Nat.eq_zero_or_pos n with rfl | h
  · exact .inl rfl
  · exact .inr (head_renderAux h (Nat.le_refl n))

theorem plain_ofInt (i : Int) : (ofInt i).Plain := ⟨rfl, head_render i.natAbs⟩

/-- What a `long long` holds stays as it is. -/
theorem toInt_saturate {n : Int} (hmin : -2 ^ 63 ≤ n) (hmax : n < 2 ^ 63) :
    (saturate n).toInt = n := by
  rw [saturate, Int64.toInt_ofInt_of_le]
  · omega
  · omega
  · omega

theorem saturate_toInt (i : Int64) : saturate i.toInt = i := by
  have := Int64.le_toInt i
  have := Int64.toInt_lt i
  apply Int64.toInt_inj.mp
  exact toInt_saturate (by omega) (by omega)

end Numerals
