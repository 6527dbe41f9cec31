import Mathlib

/-! # Insertion in front of a larger key

A list is kept in the order of a key, no key twice.  `insertFirst` looks for the place of a
new element from the front: it gives up at an element with the same key, and inserts in
front of the first one with a larger key.  An element whose key is the largest has no such
place, and is not inserted.  `inserts_iff` says so, and what is inserted keeps the order
(`Increasing.insertFirst`).
-/
namespace Keyed
variable {α κ : Type} [LinearOrder κ] (key : α → κ) (p : α)

/-- The keys increase. -/
def Increasing (l : List α) : Prop := l.Pairwise fun a b => key a < key b

/-- `p` goes in front of the first element with a larger key, unless one with its own key
comes before. -/
def insertFirst : List α → List α × Bool
  | [] => ([], false)
  | b :: bs =>
    if key b = key p then (b :: bs, false)
    else if key p < key b then (p :: b :: bs, true)
    else
      let r := insertFirst bs
      (b :: r.1, r.2)

/-- The key is free, and not the largest. -/
def Inserts (l : List α) : Prop := (∀ b ∈ l, key b ≠ key p) ∧ ∃ b ∈ l, key p < key b

variable {key p} {b : α} {bs l : List α}

theorem increasing_cons :
    Increasing key (b :: bs) ↔ (∀ a ∈ bs, key b < key a) ∧ Increasing key bs :=
  List.pairwise_cons

/-! ## One step -/

theorem insertFirst_of_eq (h : key b = key p) : insertFirst key p (b :: bs) = (b :: bs, false) := by
  rw [insertFirst, if_pos h]

theorem insertFirst_of_lt (h : key p < key b) :
    insertFirst key p (b :: bs) = (p :: b :: bs, true) := by
  rw [insertFirst, if_neg (ne_of_gt h), if_pos h]

theorem insertFirst_of_gt (h : key b < key p) : insertFirst key p (b :: bs) =
    (b :: (insertFirst key p bs).1, (insertFirst key p bs).2) := by
  rw [insertFirst, if_neg (ne_of_lt h), if_neg (not_lt_of_gt h)]

/-! ## What is left -/

/-- A list into which nothing is inserted is not changed. -/
theorem insertFirst_eq_of_not (h : (insertFirst key p l).2 = false) :
    (insertFirst key p l).1 = l := by
  induction l with
  | nil => rfl
  | cons b bs ih =>
    rcases lt_trichotomy (key b) (key p) with hlt | heq | hgt
    · rw [insertFirst_of_gt hlt] at h ⊢
      exact congrArg (b :: ·) (ih h)
    · rw [insertFirst_of_eq heq]
    · rw [insertFirst_of_lt hgt] at h
      cases h

/-- What is inserted is `p`, and nothing gets lost. -/
theorem perm_insertFirst (h : (insertFirst key p l).2 = true) :
    (insertFirst key p l).1.Perm (p :: l) := by
  induction l with
  | nil => cases h
  | cons b bs ih =>
    rcases lt_trichotomy (key b) (key p) with hlt | heq | hgt
    · rw [insertFirst_of_gt hlt] at h ⊢
      exact ((ih h).cons b).trans (List.Perm.swap p b bs)
    · rw [insertFirst_of_eq heq] at h
      cases h
    · rw [insertFirst_of_lt hgt]

theorem mem_insertFirst {a : α} (h : a ∈ (insertFirst key p l).1) : a = p ∨ a ∈ l := by
  cases hr : (insertFirst key p l).2 with
  | false =>
    rw [insertFirst_eq_of_not hr] at h
    exact .inr h
  | true => exact List.mem_cons.mp ((perm_insertFirst hr).mem_iff.mp h)

/-! ## Order -/

/-- **The keys still increase.** -/
theorem Increasing.insertFirst (h : Increasing key l) : Increasing key (insertFirst key p l).1 := by
  induction l with
  | nil => exact h
  | cons b bs ih =>
    obtain ⟨hb, hbs⟩ := increasing_cons.mp h
    rcases lt_trichotomy (key b) (key p) with hlt | heq | hgt
    · rw [insertFirst_of_gt hlt]
      refine increasing_cons.mpr ⟨?_, ih hbs⟩
      intro a ha
      rcases mem_insertFirst ha with rfl | ha
      · exact hlt
      · exact hb a ha
    · rwa [insertFirst_of_eq heq]
    · rw [insertFirst_of_lt hgt]
      refine increasing_cons.mpr ⟨?_, h⟩
      intro a ha
      rcases List.mem_cons.mp ha with rfl | ha
      · exact hgt
      · exact hgt.trans (hb a ha)

/-- A smaller key does not matter. -/
theorem inserts_cons (h : key b < key p) : Inserts key p (b :: bs) ↔ Inserts key p bs := by
  constructor
  · rintro ⟨hne, a, ha, hlt⟩
    refine ⟨fun c hc => hne c (List.mem_cons_of_mem b hc), ?_⟩
    rcases List.mem_cons.mp ha with rfl | ha
    · exact absurd hlt (not_lt_of_gt h)
    · exact ⟨a, ha, hlt⟩
  · rintro ⟨hne, a, ha, hlt⟩
    refine ⟨?_, a, List.mem_cons_of_mem b ha, hlt⟩
    intro c hc
    rcases List.mem_cons.mp hc with rfl | hc
    · exact ne_of_lt h
    · exact hne c hc

/-- **Exactly when `p` is inserted**: when its key is free and not the largest. -/
theorem inserts_iff (h : Increasing key l) : (insertFirst key p l).2 = true ↔ Inserts key p l := by
  induction l with
  | nil =>
    constructor
    · intro hr
      cases hr
    · rintro ⟨-, b, hb, -⟩
      exact absurd hb List.not_mem_nil
  | cons b bs ih =>
    obtain ⟨hb, hbs⟩ := increasing_cons.mp h
    rcases lt_trichotomy (key b) (key p) with hlt | heq | hgt
    · rw [insertFirst_of_gt hlt]
      exact (ih hbs).trans (inserts_cons hlt).symm
    · rw [insertFirst_of_eq heq]
      constructor
      · intro hr
        cases hr
      · rintro ⟨hne, -⟩
        exact absurd heq (hne b List.mem_cons_self)
    · rw [insertFirst_of_lt hgt]
      refine ⟨fun _ => ⟨?_, b, List.mem_cons_self, hgt⟩, fun _ => rfl⟩
      intro a ha
      rcases List.mem_cons.mp ha with rfl | ha
      · exact ne_of_gt hgt
      · exact ne_of_gt (hgt.trans (hb a ha))

end Keyed
