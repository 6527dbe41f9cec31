import Mathlib

/-! # Query strings

A URL as a list of bytes: its query is what stands behind the first `?`, parameters are
separated by `&`, a name and a value by the first `=`, and both are percent-decoded.
`percentDecode_append` reads back what was percent-encoded, which has none of the
separators (`not_mem_percentEncode`), and `params_intercalate` takes a query apart into the
parameters it was joined from.
-/
namespace Url

/-! ## Percent-encoding -/

/-- The bytes that stand for themselves: letters, digits, `-`, `.`, `_` and `~`. -/
def unreserved (b : UInt8) : Bool :=
  (48 ≤ b && b ≤ 57) || (65 ≤ b && b ≤ 90) || (97 ≤ b && b ≤ 122) ||
    b == 45 || b == 46 || b == 95 || b == 126

/-- A digit below 16. -/
def hexDigit (n : Nat) : UInt8 := UInt8.ofNat (if n < 10 then 48 + n else 55 + n)

/-- What a hexadecimal digit stands for, in either case. -/
def hexValue (b : UInt8) : Option Nat :=
  if 48 ≤ b ∧ b ≤ 57 then some (b.toNat - 48)
  else if 65 ≤ b ∧ b ≤ 70 then some (b.toNat - 55)
  else if 97 ≤ b ∧ b ≤ 102 then some (b.toNat - 87)
  else none

def percentByte (b : UInt8) : List UInt8 :=
  if unreserved b then [b] else [37, hexDigit (b.toNat / 16), hexDigit (b.toNat % 16)]

/-- Every byte that is not unreserved as `%` and two digits. -/
def percentEncode (s : List UInt8) : List UInt8 := s.flatMap percentByte

/-- The other way round.  A `%` without two digits behind it is left as it is. -/
def percentDecode : List UInt8 → List UInt8
  | 37 :: x :: y :: rest =>
    match hexValue x, hexValue y with
    | some h, some l => UInt8.ofNat (16 * h + l) :: percentDecode rest
    | _, _ => 37 :: percentDecode (x :: y :: rest)
  | b :: rest => b :: percentDecode rest
  | [] => []

theorem hexValue_hexDigit {n : Nat} (h : n < 16) : hexValue (hexDigit n) = some n := by
  interval_cases n <;> rfl

theorem unreserved_hexDigit {n : Nat} (h : n < 16) : unreserved (hexDigit n) = true := by
  interval_cases n <;> rfl

theorem percentDecode_cons {b : UInt8} (h : b ≠ 37) (rest : List UInt8) :
    percentDecode (b :: rest) = b :: percentDecode rest := by
  rw [percentDecode]
  rintro x y rest' rfl
  exact absurd rfl h

/-- An escaped byte is read back. -/
theorem percentDecode_percentByte (b : UInt8) (rest : List UInt8) :
    percentDecode (percentByte b ++ rest) = b :: percentDecode rest := by
  unfold percentByte
  by_cases hb : unreserved b = true
  · have hne : b ≠ 37 := by
      rintro rfl
      cases hb
    rw [if_pos hb]
    exact percentDecode_cons hne rest
  · have hlt := b.toNat_lt
    have hbyte : UInt8.ofNat (16 * (b.toNat / 16) + b.toNat % 16) = b := by
      rw [Nat.div_add_mod, UInt8.ofNat_toNat]
    rw [if_neg hb]
    show percentDecode (37 :: _ :: _ :: rest) = _
    rw [percentDecode, hexValue_hexDigit (by omega), hexValue_hexDigit (by omega)]
    exact congrArg (· :: percentDecode rest) hbyte

/-- **What was percent-encoded is read back**, whatever follows it. -/
theorem percentDecode_append (s rest : List UInt8) :
    percentDecode (percentEncode s ++ rest) = s ++ percentDecode rest := by
  induction s with
  | nil => rfl
  | cons b s ih =>
    rw [percentEncode, List.flatMap_cons, List.append_assoc, percentDecode_percentByte]
    exact congrArg (b :: ·) ih

@[simp] theorem percentDecode_percentEncode (s : List UInt8) :
    percentDecode (percentEncode s) = s := by
  have h := percentDecode_append s []
  rwa [List.append_nil, percentDecode, List.append_nil] at h

/-- A text without `%` stands for itself. -/
theorem percentDecode_of_not_mem {s : List UInt8} (h : 37 ∉ s) : percentDecode s = s := by
  induction s with
  | nil => rfl
  | cons b s ih =>
    rw [List.mem_cons, not_or] at h
    rw [percentDecode_cons (Ne.symm h.1), ih h.2]

/-- An encoded text has no byte that is reserved, but `%`. -/
theorem not_mem_percentEncode {c : UInt8} (h : unreserved c = false) (h37 : c ≠ 37)
    (s : List UInt8) : c ∉ percentEncode s := by
  intro hmem
  obtain ⟨b, -, hc⟩ := List.mem_flatMap.mp hmem
  have hlt := b.toNat_lt
  unfold percentByte at hc
  by_cases hb : unreserved b = true
  · rw [if_pos hb, List.mem_singleton] at hc
    simp [hc, hb] at h
  · rw [if_neg hb] at hc
    rcases List.mem_cons.mp hc with rfl | hc
    · exact h37 rfl
    rcases List.mem_cons.mp hc with rfl | hc
    · simp [unreserved_hexDigit (show b.toNat / 16 < 16 by omega)] at h
    · obtain rfl := List.mem_singleton.mp hc
      simp [unreserved_hexDigit (show b.toNat % 16 < 16 by omega)] at h

/-! ## Queries -/

/-- What stands behind the first `?`. -/
def query (url : List UInt8) : List UInt8 := (url.dropWhile (· != 63)).drop 1

/-- The name and the value of a parameter. -/
def param (t : List UInt8) : List UInt8 × List UInt8 :=
  (percentDecode (t.takeWhile (· != 61)), percentDecode ((t.dropWhile (· != 61)).drop 1))

/-- The parameters of a query.  An empty one has none. -/
def params (q : List UInt8) : List (List UInt8 × List UInt8) :=
  if q = [] then [] else (q.splitOn 38).map param

/-- The parameters of a URL. -/
def parameters (url : List UInt8) : List (List UInt8 × List UInt8) := params (query url)

theorem query_append {url q : List UInt8} (h : 63 ∉ url) : query (url ++ 63 :: q) = q := by
  have hall : ∀ b ∈ url, (b != 63) = true := by
    intro b hb
    rw [bne_iff_ne]
    rintro rfl
    exact h hb
  rw [query, List.dropWhile_append_of_pos hall]
  rfl

/-- A URL that has a query keeps it in front of what is appended. -/
theorem query_append_of_mem {url : List UInt8} (h : 63 ∈ url) (t : List UInt8) :
    query (url ++ t) = query url ++ t := by
  obtain ⟨before, q, rfl, hbefore⟩ := List.eq_append_cons_of_mem h
  rw [List.append_assoc, List.cons_append, query_append hbefore, query_append hbefore]

theorem query_of_not_mem {url : List UInt8} (h : 63 ∉ url) : query url = [] := by
  have hnil : url.dropWhile (· != 63) = [] := by
    rw [List.dropWhile_eq_nil_iff]
    intro b hb
    rw [bne_iff_ne]
    rintro rfl
    exact h hb
  rw [query, hnil, List.drop_nil]

/-- The first `=` ends the name. -/
theorem param_append {name : List UInt8} (h : 61 ∉ name) (value : List UInt8) :
    param (name ++ 61 :: value) = (percentDecode name, percentDecode value) := by
  have hall : ∀ b ∈ name, (b != 61) = true := by
    intro b hb
    rw [bne_iff_ne]
    rintro rfl
    exact h hb
  rw [param, List.takeWhile_append_of_pos hall, List.dropWhile_append_of_pos hall]
  simp

/-- A text is split where the separator stands. -/
theorem length_splitOn (a : UInt8) (s : List UInt8) :
    (s.splitOn a).length = s.count a + 1 := by
  induction s with
  | nil => rfl
  | cons b s ih =>
    rw [List.splitOn_cons_eq_if_modifyHead, List.count_cons]
    split
    · rw [List.length_cons, ih]
    · rw [List.length_modifyHead, ih]

theorem length_params {q : List UInt8} (h : q ≠ []) : (params q).length = q.count 38 + 1 := by
  rw [params, if_neg h, List.length_map, length_splitOn]

/-- A parameter as it stands in a query. -/
def field (f : List UInt8 × List UInt8) : List UInt8 := f.1 ++ 61 :: f.2

theorem param_field {f : List UInt8 × List UInt8} (h : 61 ∉ f.1) :
    param (field f) = (percentDecode f.1, percentDecode f.2) := param_append h f.2

theorem not_mem_field {f : List UInt8 × List UInt8} (h : 38 ∉ f.1) (h' : 38 ∉ f.2) :
    38 ∉ field f := by
  simp [field, h, h']

/-- A query is split into the parameters it was joined from. -/
theorem splitOn_intercalate_field {fs : List (List UInt8 × List UInt8)} (hne : fs ≠ [])
    (h : ∀ f ∈ fs, 38 ∉ f.1 ∧ 38 ∉ f.2) :
    ([38].intercalate (fs.map field)).splitOn 38 = fs.map field := by
  apply List.splitOn_intercalate
  · intro t ht
    obtain ⟨f, hf, rfl⟩ := List.mem_map.mp ht
    exact not_mem_field (h f hf).1 (h f hf).2
  · simpa using hne

/-- **And they are read back**, name and value decoded. -/
theorem params_intercalate {fs : List (List UInt8 × List UInt8)} (hne : fs ≠ [])
    (h : ∀ f ∈ fs, 61 ∉ f.1 ∧ 38 ∉ f.1 ∧ 38 ∉ f.2) :
    params ([38].intercalate (fs.map field)) =
      fs.map fun f => (percentDecode f.1, percentDecode f.2) := by
  have hsplit := splitOn_intercalate_field hne fun f hf => (h f hf).2
  have hq : [38].intercalate (fs.map field) ≠ [] := by
    intro hnil
    rw [hnil] at hsplit
    obtain ⟨f, fs', rfl⟩ := List.exists_cons_of_ne_nil hne
    have hfield := (List.cons.inj hsplit).1
    simp [field] at hfield
  rw [params, if_neg hq, hsplit, List.map_map]
  apply List.map_congr_left
  intro f hf
  exact param_field (h f hf).1

end Url
