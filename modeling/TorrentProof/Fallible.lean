import Mathlib

/-! # Computations that can fail

What a sequence of steps in `Except` that ends well says about its steps, and loops of
which all steps but one leave something alone.  `Ends` is the weakest condition under which
a computation ends as it should where some errors are allowed, and `Runs` the same for a loop
of which every step that is reached has to meet a condition of its own.
-/
namespace Fallible

/-- A sequence of steps succeeds when each of them does. -/
theorem bind_eq_ok {ε α β : Type} {x : Except ε α} {f : α → Except ε β} {b : β} :
    (x >>= f) = .ok b ↔ ∃ a, x = .ok a ∧ f a = .ok b := by
  constructor
  · intro h
    cases x with
    | error e => cases h
    | ok a => exact ⟨a, rfl, h⟩
  · rintro ⟨a, rfl, h⟩
    exact h

@[simp] theorem ok_bind {ε α β : Type} (a : α) (f : α → Except ε β) :
    ((Except.ok a : Except ε α) >>= f) = f a := rfl

/-- A loop whose steps all succeed and keep `g` succeeds and keeps `g`. -/
theorem foldlM_keeps {ε α σ τ : Type} {f : σ → α → Except ε σ} {g : σ → τ} {l : List α}
    (h : ∀ a ∈ l, ∀ s, ∃ s', f s a = .ok s' ∧ g s' = g s) (s : σ) :
    ∃ s', l.foldlM f s = .ok s' ∧ g s' = g s := by
  induction l generalizing s with
  | nil => exact ⟨s, rfl, rfl⟩
  | cons a l ih =>
    obtain ⟨s₁, h₁, hg₁⟩ := h a List.mem_cons_self s
    obtain ⟨s₂, h₂, hg₂⟩ := ih (fun b hb => h b (List.mem_cons_of_mem a hb)) s₁
    refine ⟨s₂, ?_, hg₂.trans hg₁⟩
    rw [List.foldlM_cons, h₁, ok_bind, h₂]

/-- A loop in which all steps but the one for `a` keep `g`: what it leaves of `g` is what
that step leaves, in a state the steps before it kept. -/
theorem foldlM_one {ε α σ τ : Type} {f : σ → α → Except ε σ} {g : σ → τ} {before after : List α}
    {a : α} (h : ∀ b ∈ before ++ after, ∀ s, ∃ s', f s b = .ok s' ∧ g s' = g s) (s : σ)
    (P : τ → Prop) :
    ∃ s₁, g s₁ = g s ∧ ((∃ s', (before ++ a :: after).foldlM f s = .ok s' ∧ P (g s')) ↔
      ∃ s₂, f s₁ a = .ok s₂ ∧ P (g s₂)) := by
  obtain ⟨s₁, h₁, hg₁⟩ := foldlM_keeps (fun b hb => h b (List.mem_append_left _ hb)) s
  refine ⟨s₁, hg₁, ?_⟩
  rw [List.foldlM_append, h₁, ok_bind, List.foldlM_cons]
  have hafter := foldlM_keeps fun b hb => h b (List.mem_append_right _ hb)
  constructor
  · rintro ⟨s', hs', hP⟩
    obtain ⟨s₂, h₂, hs'⟩ := bind_eq_ok.mp hs'
    obtain ⟨s₃, h₃, hg₃⟩ := hafter s₂
    obtain rfl := Except.ok.inj (h₃.symm.trans hs')
    exact ⟨s₂, h₂, hg₃ ▸ hP⟩
  · rintro ⟨s₂, h₂, hP⟩
    obtain ⟨s₃, h₃, hg₃⟩ := hafter s₂
    exact ⟨s₃, by rw [h₂, ok_bind, h₃], hg₃ ▸ hP⟩

/-- A loop that succeeds keeps what all of its steps keep. -/
theorem foldlM_keeps_of_ok {ε α σ τ : Type} {f : σ → α → Except ε σ} {g : σ → τ} {l : List α}
    (h : ∀ a ∈ l, ∀ s s', f s a = .ok s' → g s' = g s) {s s' : σ} (hok : l.foldlM f s = .ok s') :
    g s' = g s := by
  induction l generalizing s with
  | nil =>
    obtain rfl := Except.ok.inj hok
    rfl
  | cons a l ih =>
    rw [List.foldlM_cons] at hok
    obtain ⟨s₁, h₁, hok⟩ := bind_eq_ok.mp hok
    have hrest := ih (fun b hb => h b (List.mem_cons_of_mem a hb)) hok
    exact hrest.trans (h a List.mem_cons_self s s₁ h₁)

/-- A loop that succeeds, of which all steps but the one for `a` keep `g`, leaves what that
step leaves. -/
theorem foldlM_one_of_ok {ε α σ τ : Type} {f : σ → α → Except ε σ} {g : σ → τ}
    {before after : List α} {a : α}
    (h : ∀ b ∈ before ++ after, ∀ s s', f s b = .ok s' → g s' = g s) {s s' : σ}
    (hok : (before ++ a :: after).foldlM f s = .ok s') :
    ∃ s₁ s₂, g s₁ = g s ∧ f s₁ a = .ok s₂ ∧ g s' = g s₂ := by
  rw [List.foldlM_append] at hok
  obtain ⟨s₁, h₁, hok⟩ := bind_eq_ok.mp hok
  rw [List.foldlM_cons] at hok
  obtain ⟨s₂, h₂, hok⟩ := bind_eq_ok.mp hok
  refine ⟨s₁, s₂, ?_, h₂, ?_⟩
  · exact foldlM_keeps_of_ok (fun b hb => h b (List.mem_append_left _ hb)) h₁
  · exact foldlM_keeps_of_ok (fun b hb => h b (List.mem_append_right _ hb)) hok

/-! ## Ending well -/

section Ends
variable {ε α β σ : Type} {allowed : ε → Prop}

/-- A result with the property `P`, or an error that is allowed. -/
def Ends (allowed : ε → Prop) (x : Except ε α) (P : α → Prop) : Prop :=
  match x with
  | .ok a => P a
  | .error e => allowed e

@[simp] theorem ends_ok {a : α} {P : α → Prop} : Ends allowed (.ok a) P ↔ P a := Iff.rfl

@[simp] theorem ends_error {e : ε} {P : α → Prop} : Ends allowed (.error e) P ↔ allowed e := Iff.rfl

theorem ends_bind {x : Except ε α} {f : α → Except ε β} {P : β → Prop} :
    Ends allowed (x >>= f) P ↔ Ends allowed x fun a => Ends allowed (f a) P := by
  cases x with
  | error e => rfl
  | ok a => rfl

/-- What ends with no error that is allowed ends with a result. -/
theorem ends_iff_of_ne {x : Except ε α} {P : α → Prop} (h : ∀ e, x = .error e → ¬ allowed e) :
    Ends allowed x P ↔ ∃ a, x = .ok a ∧ P a := by
  cases x with
  | error e => simp [h e rfl]
  | ok a => simp

/-- Neither of two steps ends with the error, so the two in sequence do not. -/
theorem bind_ne_error {x : Except ε α} {f : α → Except ε β} {e : ε} (hx : x ≠ .error e)
    (hf : ∀ a, f a ≠ .error e) : (x >>= f) ≠ .error e := by
  cases x with
  | error e' => exact fun h => hx (congrArg _ (Except.error.inj h))
  | ok a => exact hf a

/-- The states in which the items of a loop are reached. -/
def reached (f : σ → α → Except ε σ) : σ → List α → List (σ × α)
  | _, [] => []
  | s, a :: l =>
    (s, a) :: match f s a with
      | .ok s' => reached f s' l
      | .error _ => []

/-- A loop that ends with `P`, each item of which is reached in a state with `Q`. -/
structure Runs (allowed : ε → Prop) (f : σ → α → Except ε σ) (Q : σ → α → Prop) (s : σ)
    (l : List α) (P : σ → Prop) : Prop where
  ends : Ends allowed (l.foldlM f s) P
  reached : ∀ p ∈ reached f s l, Q p.1 p.2

variable {f : σ → α → Except ε σ} {Q : σ → α → Prop} {s : σ} {a : α} {l : List α} {P : σ → Prop}

theorem runs_nil : Runs allowed f Q s [] P ↔ P s := by
  constructor
  · intro h
    exact h.ends
  · intro h
    exact ⟨h, nofun⟩

/-- A condition on all that a function makes of the items reached. -/
theorem runs_flatMap {γ : Type} {g : σ × α → List γ} {R : γ → Prop} :
    Runs allowed f (fun s a => ∀ c ∈ g (s, a), R c) s l P ↔
      (∀ c ∈ (Fallible.reached f s l).flatMap g, R c) ∧ Ends allowed (l.foldlM f s) P := by
  rw [List.forall_mem_flatMap]
  constructor
  · intro h
    exact ⟨h.reached, h.ends⟩
  · intro h
    exact ⟨h.2, h.1⟩

/-- **One step and the rest.** -/
theorem runs_cons : Runs allowed f Q s (a :: l) P ↔
    Q s a ∧ Ends allowed (f s a) fun s' => Runs allowed f Q s' l P := by
  have hends : Ends allowed ((a :: l).foldlM f s) P ↔
      Ends allowed (f s a) fun s' => Ends allowed (l.foldlM f s') P := by
    rw [List.foldlM_cons, ends_bind]
  cases hstep : f s a with
  | error e =>
    rw [hstep] at hends
    constructor
    · intro h
      exact ⟨h.reached (s, a) List.mem_cons_self, hends.mp h.ends⟩
    · intro h
      refine ⟨hends.mpr h.2, ?_⟩
      rw [Fallible.reached, hstep]
      simpa using h.1
  | ok s' =>
    rw [hstep] at hends
    have hreached : Fallible.reached f s (a :: l) = (s, a) :: Fallible.reached f s' l := by
      rw [Fallible.reached, hstep]
    constructor
    · intro h
      refine ⟨h.reached (s, a) List.mem_cons_self, hends.mp h.ends, ?_⟩
      intro p hp
      exact h.reached p (hreached ▸ List.mem_cons_of_mem _ hp)
    · intro h
      refine ⟨hends.mpr h.2.ends, ?_⟩
      rw [hreached, List.forall_mem_cons]
      exact ⟨h.1, h.2.reached⟩

end Ends

end Fallible
