import Mathlib
import TorrentProof.KeyedInsert

/-! # Maps as lists in the order of their keys

`assign` sets the value of a key: in its place if the key is there, and else in front of the
first larger key.  The keys stay in order (`Increasing.assign`), a list that is in order is
what comes out if its entries are assigned one by one (`assignAll_increasing`), and of several
entries with one key the last counts (`lookup_assignAll`).
-/
namespace Keyed
variable {κ β : Type} [LinearOrder κ]

/-- `m[k] = v`, where a key that is there stays as it is. -/
def assign (k : κ) (v : β) : List (κ × β) → List (κ × β)
  | [] => [(k, v)]
  | (a, w) :: m =>
    if k < a then (k, v) :: (a, w) :: m
    else if a < k then (a, w) :: assign k v m
    else (a, v) :: m

/-- Entries assigned one after the other. -/
def assignAll (m es : List (κ × β)) : List (κ × β) := es.foldl (fun m e => assign e.1 e.2 m) m

variable {k a : κ} {v w : β} {m es : List (κ × β)}

/-! ## One assignment -/

theorem assign_of_lt (h : k < a) : assign k v ((a, w) :: m) = (k, v) :: (a, w) :: m := by
  rw [assign, if_pos h]

theorem assign_of_gt (h : a < k) : assign k v ((a, w) :: m) = (a, w) :: assign k v m := by
  rw [assign, if_neg (lt_asymm h), if_pos h]

theorem assign_same : assign k v ((k, w) :: m) = (k, v) :: m := by
  rw [assign, if_neg (lt_irrefl k), if_neg (lt_irrefl k)]

theorem mem_assign {e : κ × β} (h : e ∈ assign k v m) : e = (k, v) ∨ e ∈ m := by
  induction m with
  | nil => exact .inl (List.mem_singleton.mp h)
  | cons e' m ih =>
    obtain ⟨a, w⟩ := e'
    rcases lt_trichotomy k a with hlt | rfl | hgt
    · rw [assign_of_lt hlt] at h
      exact List.mem_cons.mp h
    · rw [assign_same] at h
      rcases List.mem_cons.mp h with rfl | h
      · exact .inl rfl
      · exact .inr (List.mem_cons_of_mem _ h)
    · rw [assign_of_gt hgt] at h
      rcases List.mem_cons.mp h with rfl | h
      · exact .inr List.mem_cons_self
      · rcases ih h with rfl | h
        · exact .inl rfl
        · exact .inr (List.mem_cons_of_mem _ h)

/-- **The keys stay in order.** -/
theorem Increasing.assign (h : Increasing Prod.fst m) : Increasing Prod.fst (assign k v m) := by
  induction m with
  | nil => exact List.pairwise_singleton _ _
  | cons e m ih =>
    obtain ⟨a, w⟩ := e
    obtain ⟨ha, hm⟩ := increasing_cons.mp h
    rcases lt_trichotomy k a with hlt | rfl | hgt
    · rw [assign_of_lt hlt]
      refine increasing_cons.mpr ⟨?_, h⟩
      rintro e he
      rcases List.mem_cons.mp he with rfl | he
      · exact hlt
      · exact hlt.trans (ha e he)
    · rw [assign_same]
      exact increasing_cons.mpr ⟨ha, hm⟩
    · rw [assign_of_gt hgt]
      refine increasing_cons.mpr ⟨?_, ih hm⟩
      rintro e he
      rcases mem_assign he with rfl | he
      · exact hgt
      · exact ha e he

/-- A key behind all others goes to the end. -/
theorem assign_of_forall_lt (h : ∀ e ∈ m, e.1 < k) : assign k v m = m ++ [(k, v)] := by
  induction m with
  | nil => rfl
  | cons e m ih =>
    obtain ⟨a, w⟩ := e
    rw [assign_of_gt (h _ List.mem_cons_self), ih fun e he => h e (List.mem_cons_of_mem _ he),
      List.cons_append]

/-! ## Several assignments -/

theorem Increasing.assignAll (h : Increasing Prod.fst m) :
    Increasing Prod.fst (assignAll m es) := by
  induction es generalizing m with
  | nil => exact h
  | cons e es ih => exact ih h.assign

theorem mem_assignAll {e : κ × β} (h : e ∈ assignAll m es) : e ∈ m ∨ e ∈ es := by
  induction es generalizing m with
  | nil => exact .inl h
  | cons e' es ih =>
    rcases ih h with h | h
    · rcases mem_assign h with rfl | h
      · exact .inr List.mem_cons_self
      · exact .inl h
    · exact .inr (List.mem_cons_of_mem _ h)

/-- **Entries that are in order are assigned as they stand.** -/
theorem assignAll_increasing (h : Increasing Prod.fst (m ++ es)) : assignAll m es = m ++ es := by
  induction es generalizing m with
  | nil => exact (List.append_nil m).symm
  | cons e es ih =>
    have hlast : assign e.1 e.2 m = m ++ [e] :=
      assign_of_forall_lt fun a ha => (List.pairwise_append.mp h).2.2 a ha e List.mem_cons_self
    have hcons : m ++ e :: es = m ++ [e] ++ es := by simp
    rw [hcons] at h ⊢
    rw [← ih h, ← hlast]
    rfl

/-! ## Lookup -/

section Lookup
variable [BEq κ] [LawfulBEq κ]

theorem lookup_assign (j : κ) : (assign k v m).lookup j = ((k, v) :: m).lookup j := by
  induction m with
  | nil => rfl
  | cons e m ih =>
    obtain ⟨a, w⟩ := e
    rcases lt_trichotomy k a with hlt | rfl | hgt
    · rw [assign_of_lt hlt]
    · rw [assign_same]
      rcases eq_or_ne j k with rfl | hj
      · rw [List.lookup_cons_self, List.lookup_cons_self]
      · simp only [List.lookup_cons, beq_false_of_ne hj]
    · rw [assign_of_gt hgt]
      rcases eq_or_ne j a with rfl | hj
      · simp only [List.lookup_cons, beq_self_eq_true, beq_false_of_ne hgt.ne]
      · simp only [List.lookup_cons, beq_false_of_ne hj] at ih ⊢
        exact ih

omit [LinearOrder κ] [LawfulBEq κ] in
/-- Values are mapped where they stand. -/
theorem lookup_map_snd {γ : Type} (f : β → γ) (j : κ) :
    (m.map fun e => (e.1, f e.2)).lookup j = (m.lookup j).map f := by
  induction m with
  | nil => rfl
  | cons e m ih =>
    obtain ⟨a, w⟩ := e
    rw [List.map_cons, List.lookup_cons, List.lookup_cons, ih]
    rcases j == a with _ | _
    · rfl
    · rfl

/-- **The last entry of a key counts.** -/
theorem lookup_assignAll (j : κ) :
    (assignAll m es).lookup j = (es.reverse ++ m).lookup j := by
  induction es generalizing m with
  | nil => rfl
  | cons e es ih =>
    rw [assignAll, List.foldl_cons]
    refine ih.trans ?_
    rw [List.lookup_append, lookup_assign, ← List.lookup_append, List.reverse_cons,
      List.append_assoc]
    rfl

end Lookup

end Keyed
