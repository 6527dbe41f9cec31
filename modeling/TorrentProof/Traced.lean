import Mathlib
import TorrentProof.Bytes

/-! # Computations that record their memory accesses

A value computed from memory does not show which bytes were looked at or written on
the way.  `Traced ρ α` is such a computation together with its accesses in order,
each naming one of the regions `ρ` and the offset in it.  `val` is what the
computation returns on memory in which every access goes through; whether it
stays inside its arrays is then a statement about `log` alone.
-/
namespace Bytes

/-- One byte read from, or written to, a region. -/
inductive Access (ρ : Type) where
  | read (r : ρ) (off : Nat)
  | write (r : ρ) (off : Nat)

/-- A result and the accesses made to reach it. -/
structure Traced (ρ α : Type) where
  val : α
  log : List (Access ρ)

namespace Traced
variable {ρ α β σ : Type}

instance : Monad (Traced ρ) where
  pure a := ⟨a, []⟩
  bind x f := ⟨(f x.val).val, x.log ++ (f x.val).log⟩

@[simp] theorem val_pure (a : α) : (pure a : Traced ρ α).val = a := (rfl)

@[simp] theorem log_pure (a : α) : (pure a : Traced ρ α).log = [] := (rfl)

@[simp] theorem val_bind (x : Traced ρ α) (f : α → Traced ρ β) :
    (x >>= f).val = (f x.val).val := (rfl)

@[simp] theorem log_bind (x : Traced ρ α) (f : α → Traced ρ β) :
    (x >>= f).log = x.log ++ (f x.val).log := (rfl)

@[simp] theorem val_ite (c : Prop) [Decidable c] (x y : Traced ρ α) :
    (if c then x else y).val = if c then x.val else y.val := apply_ite val c x y

/-- Every access of the computation satisfies `P`. -/
def Within (x : Traced ρ α) (P : Access ρ → Prop) : Prop := ∀ a ∈ x.log, P a

variable {P : Access ρ → Prop}

instance [DecidablePred P] (x : Traced ρ α) : Decidable (x.Within P) :=
  inferInstanceAs (Decidable (∀ a ∈ x.log, P a))

@[simp] theorem within_pure (a : α) : (pure a : Traced ρ α).Within P := by
  simp [Within]

@[simp] theorem within_bind (x : Traced ρ α) (f : α → Traced ρ β) :
    (x >>= f).Within P ↔ x.Within P ∧ (f x.val).Within P := by
  simp only [Within, log_bind, List.mem_append, or_imp, forall_and]

@[simp] theorem within_ite (c : Prop) [Decidable c] (x y : Traced ρ α) :
    (if c then x else y).Within P ↔ if c then x.Within P else y.Within P := by
  split <;> rfl

/-! ## The accesses of each operation -/

/-- `m[off]`. -/
def read (r : ρ) (m : Mem) (off : Nat) : Traced ρ UInt8 := ⟨m off, [.read r off]⟩

/-- `m[off] = b`. -/
def write (r : ρ) (m : Mem) (off : Nat) (b : UInt8) : Traced ρ Mem :=
  ⟨m.write off b, [.write r off]⟩

/-- `ntohl(*(uint32_t*)&m[off])`. -/
def load32 (r : ρ) (m : Mem) (off : Nat) : Traced ρ UInt32 :=
  ⟨m.load32 off, (List.range 4).map fun i => .read r (off + i)⟩

/-- `memcpy(dst, src + soff, n)` out of region `r`. -/
def memcpyFrom (r : ρ) (dst src : Mem) (soff n : Nat) : Traced ρ Mem :=
  ⟨dst.memcpy 0 src soff n, (List.range n).map fun i => .read r (soff + i)⟩

/-- `memcpy(dst, src, n)` into region `r`. -/
def memcpyInto (r : ρ) (dst src : Mem) (n : Nat) : Traced ρ Mem :=
  ⟨dst.memcpy 0 src 0 n, (List.range n).map fun i => .write r i⟩

/-- `bzero(m, n)`. -/
def bzero (r : ρ) (m : Mem) (n : Nat) : Traced ρ Mem :=
  ⟨m.bzero n, (List.range n).map fun i => .write r i⟩

@[simp] theorem val_read (r : ρ) (m : Mem) (off : Nat) : (read r m off).val = m off := (rfl)

@[simp] theorem val_write (r : ρ) (m : Mem) (off : Nat) (b : UInt8) :
    (write r m off b).val = m.write off b := (rfl)

@[simp] theorem val_load32 (r : ρ) (m : Mem) (off : Nat) :
    (load32 r m off).val = m.load32 off := (rfl)

@[simp] theorem val_memcpyFrom (r : ρ) (dst src : Mem) (soff n : Nat) :
    (memcpyFrom r dst src soff n).val = dst.memcpy 0 src soff n := (rfl)

@[simp] theorem val_memcpyInto (r : ρ) (dst src : Mem) (n : Nat) :
    (memcpyInto r dst src n).val = dst.memcpy 0 src 0 n := (rfl)

@[simp] theorem val_bzero (r : ρ) (m : Mem) (n : Nat) : (bzero r m n).val = m.bzero n := (rfl)

@[simp] theorem within_read (r : ρ) (m : Mem) (off : Nat) :
    (read r m off).Within P ↔ P (.read r off) := by
  simp [Within, read]

@[simp] theorem within_write (r : ρ) (m : Mem) (off : Nat) (b : UInt8) :
    (write r m off b).Within P ↔ P (.write r off) := by
  simp [Within, write]

@[simp] theorem within_load32 (r : ρ) (m : Mem) (off : Nat) :
    (load32 r m off).Within P ↔ ∀ i, i < 4 → P (.read r (off + i)) := by
  simp [Within, load32]

@[simp] theorem within_memcpyFrom (r : ρ) (dst src : Mem) (soff n : Nat) :
    (memcpyFrom r dst src soff n).Within P ↔ ∀ i, i < n → P (.read r (soff + i)) := by
  simp [Within, memcpyFrom]

@[simp] theorem within_memcpyInto (r : ρ) (dst src : Mem) (n : Nat) :
    (memcpyInto r dst src n).Within P ↔ ∀ i, i < n → P (.write r i) := by
  simp [Within, memcpyInto]

@[simp] theorem within_bzero (r : ρ) (m : Mem) (n : Nat) :
    (bzero r m n).Within P ↔ ∀ i, i < n → P (.write r i) := by
  simp [Within, bzero]

/-! ## Counting loops -/

/-- `for (i = lo; i < lo + n; i++) s = body(i, s);` -/
def forLoop (body : Nat → σ → Traced ρ σ) : Nat → Nat → σ → Traced ρ σ
  | _, 0, s => pure s
  | lo, n + 1, s => do
    let s ← body lo s
    forLoop body (lo + 1) n s

/-- The loop `for (i = lo; i < lo + n; i++) dst[i - shift] = src[i];` -/
def copyLoop (r r' : ρ) (src : Mem) (shift lo n : Nat) (dst : Mem) : Traced ρ Mem :=
  forLoop (fun i dst => do
    let b ← read r src i
    write r' dst (i - shift) b) lo n dst

/-- A copying loop is one `memcpy`. -/
theorem val_copyLoop (r r' : ρ) (src : Mem) {shift lo : Nat} (n : Nat) (dst : Mem)
    (h : shift ≤ lo) :
    (copyLoop r r' src shift lo n dst).val = dst.memcpy (lo - shift) src lo n := by
  unfold copyLoop
  induction n generalizing lo dst with
  | zero =>
    funext i
    simp only [forLoop, val_pure]
    rw [Mem.memcpy_of_not_mem _ _ (by omega)]
  | succ n ih =>
    rw [forLoop, val_bind, ih _ (by omega)]
    funext i
    simp only [val_bind, val_read, val_write, Mem.memcpy, Mem.write]
    -- offset `lo - shift` is the byte this round wrote; the later rounds write above it
    rcases Nat.lt_trichotomy i (lo - shift) with hi | hi | hi
    · rw [if_neg (by omega), if_neg (by omega), if_neg (by omega)]
    · rw [if_neg (by omega), if_pos hi, if_pos (by omega), hi, Nat.sub_self, Nat.add_zero]
    · rw [if_neg (show ¬ i = lo - shift by omega)]
      by_cases hn : i < lo + 1 - shift + n
      · rw [if_pos (by omega), if_pos (by omega)]
        exact congrArg src (by omega)
      · rw [if_neg (by omega), if_neg (by omega)]

/-- What a copying loop reads and what it writes. -/
theorem within_copyLoop (r r' : ρ) (src : Mem) {shift lo : Nat} (n : Nat) (dst : Mem)
    (h : shift ≤ lo) :
    (copyLoop r r' src shift lo n dst).Within P ↔
      ∀ i, i < n → P (.read r (lo + i)) ∧ P (.write r' (lo - shift + i)) := by
  unfold copyLoop
  induction n generalizing lo dst with
  | zero => simp [forLoop]
  | succ n ih =>
    rw [forLoop, within_bind, ih _ (by omega)]
    simp only [within_bind, within_read, within_write]
    constructor
    · rintro ⟨hhead, htail⟩ i hi
      cases i with
      | zero => exact hhead
      | succ i =>
        have := htail i (by omega)
        rwa [show lo + 1 + i = lo + (i + 1) from by omega,
          show lo + 1 - shift + i = lo - shift + (i + 1) from by omega] at this
    · intro hall
      refine ⟨hall 0 (by omega), ?_⟩
      intro i hi
      have := hall (i + 1) (by omega)
      rwa [show lo + 1 + i = lo + (i + 1) from by omega,
        show lo + 1 - shift + i = lo - shift + (i + 1) from by omega]

end Traced
end Bytes
