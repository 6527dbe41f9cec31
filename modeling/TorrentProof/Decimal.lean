import Mathlib

/-! # Decimal numbers as text

`render` writes a number the way `printf("%d")` does, without leading zeros, and
`value` is what a string of digits stands for.
-/
namespace Decimal

/-- `'0' + d`. -/
def digit (d : Nat) : UInt8 := UInt8.ofNat (48 + d)

def isDigit (b : UInt8) : Bool := 48 ≤ b && b ≤ 57

/-- The number a string of digits stands for. -/
def value (ds : List UInt8) : Nat := ds.foldl (fun n b => 10 * n + (b.toNat - 48)) 0

/-- The digits of `n`, at most `fuel + 1` of them. -/
def renderAux : Nat → Nat → List UInt8
  | 0, n => [digit (n % 10)]
  | fuel + 1, n => if n < 10 then [digit n] else renderAux fuel (n / 10) ++ [digit (n % 10)]

/-- The digits of `n`, of which there are no more than `n + 1`. -/
def render (n : Nat) : List UInt8 := renderAux n n

/-- A number with its sign. -/
def renderInt (i : Int) : List UInt8 :=
  if i < 0 then 45 :: render i.natAbs else render i.natAbs

/-- The number a string of digits, possibly behind a minus sign, stands for. -/
def valueInt : List UInt8 → Int
  | 45 :: ds => -value ds
  | ds => value ds

theorem toNat_digit {d : Nat} (h : d < 10) : (digit d).toNat = 48 + d := by
  rw [digit, UInt8.toNat_ofNat', Nat.mod_eq_of_lt (by omega)]

theorem isDigit_digit {d : Nat} (h : d < 10) : isDigit (digit d) = true := by
  have hd := toNat_digit h
  rw [isDigit, Bool.and_eq_true, decide_eq_true_iff, decide_eq_true_iff, UInt8.le_iff_toNat_le,
    UInt8.le_iff_toNat_le, hd]
  exact ⟨Nat.le_add_right 48 d, show 48 + d ≤ 57 by omega⟩

theorem value_append_singleton (ds : List UInt8) (b : UInt8) :
    value (ds ++ [b]) = 10 * value ds + (b.toNat - 48) := by
  simp [value]

theorem isDigit_renderAux {fuel n : Nat} {b : UInt8} (h : b ∈ renderAux fuel n) :
    isDigit b = true := by
  induction fuel generalizing n with
  | zero =>
    rw [renderAux, List.mem_singleton] at h
    rw [h]
    exact isDigit_digit (Nat.mod_lt n (by omega))
  | succ fuel ih =>
    rw [renderAux] at h
    split at h
    · rw [List.mem_singleton] at h
      rw [h]
      exact isDigit_digit (by assumption)
    · rcases List.mem_append.mp h with h | h
      · exact ih h
      · rw [List.mem_singleton] at h
        rw [h]
        exact isDigit_digit (Nat.mod_lt n (by omega))

theorem value_renderAux {fuel n : Nat} (h : n ≤ fuel) : value (renderAux fuel n) = n := by
  induction fuel generalizing n with
  | zero =>
    obtain rfl : n = 0 := by omega
    rfl
  | succ fuel ih =>
    rw [renderAux]
    split
    · rw [value, List.foldl_cons, List.foldl_nil, toNat_digit (by assumption)]
      omega
    · rw [value_append_singleton, ih (by omega), toNat_digit (Nat.mod_lt n (by omega))]
      omega

/-- A digit is written as itself. -/
theorem render_of_lt {d : Nat} (h : d < 10) : render d = [digit d] := by
  rw [render]
  cases d with
  | zero => rfl
  | succ d => rw [renderAux, if_pos h]

theorem renderAux_ne_nil (fuel n : Nat) : renderAux fuel n ≠ [] := by
  cases fuel with
  | zero => simp [renderAux]
  | succ fuel =>
    rw [renderAux]
    split <;> simp

theorem isDigit_render {n : Nat} {b : UInt8} (h : b ∈ render n) : isDigit b = true :=
  isDigit_renderAux h

/-- **What was rendered is read back.** -/
@[simp] theorem value_render (n : Nat) : value (render n) = n := value_renderAux (Nat.le_refl n)

theorem render_ne_nil (n : Nat) : render n ≠ [] := renderAux_ne_nil n n

/-- The bytes of a rendered number are its digits and the minus sign. -/
theorem isDigit_or_minus_of_mem {i : Int} {b : UInt8} (h : b ∈ renderInt i) :
    isDigit b = true ∨ b = 45 := by
  rw [renderInt] at h
  split at h
  · rcases List.mem_cons.mp h with rfl | h
    · exact .inr rfl
    · exact .inl (isDigit_render h)
  · exact .inl (isDigit_render h)

@[simp] theorem valueInt_renderInt (i : Int) : valueInt (renderInt i) = i := by
  rw [renderInt]
  split
  · rw [valueInt, value_render]
    omega
  · obtain ⟨b, ds, hds⟩ := List.exists_cons_of_ne_nil (render_ne_nil i.natAbs)
    have hb : b ≠ 45 := by
      rintro rfl
      exact absurd (isDigit_render (hds ▸ List.mem_cons_self : (45 : UInt8) ∈ render i.natAbs))
        (by decide)
    have hval := value_render i.natAbs
    rw [hds] at hval ⊢
    rw [valueInt.eq_2 _ (fun _ h => hb (List.cons.inj h).1), hval]
    omega

end Decimal
