import Mathlib
import TorrentProof.Bytes

/-! # What a call overwrites

A function that is handed a buffer and leaves a message in it should write the message and
nothing else.  `Overwrites f off n` says that `f` does so with the `n` bytes from `off` on:
what it leaves there does not depend on what was there before, and every other byte stays.
Writes next to each other, or over each other, add up (`Overwrites.comp`), and the bytes
that are overwritten are determined by the function (`Overwrites.unique`).
-/
namespace Bytes

/-- `f` overwrites the `n` bytes from `off` on. -/
structure Overwrites (f : Mem → Mem) (off n : Nat) : Prop where
  determined : ∀ m m' i, off ≤ i ∧ i < off + n → f m i = f m' i
  frame : ∀ m i, ¬ (off ≤ i ∧ i < off + n) → f m i = m i

theorem overwrites_id (off : Nat) : Overwrites id off 0 where
  determined := by
    intro m m' i hi
    omega
  frame := by
    intro m i _
    rfl

theorem overwrites_bzero (n : Nat) : Overwrites (Mem.bzero · n) 0 n where
  determined := by
    intro m m' i hi
    rw [Mem.bzero_of_lt _ (by omega), Mem.bzero_of_lt _ (by omega)]
  frame := by
    intro m i hi
    exact if_neg (by omega)

theorem overwrites_write (off : Nat) (b : UInt8) : Overwrites (Mem.write · off b) off 1 where
  determined := by
    intro m m' i hi
    obtain rfl : i = off := by omega
    rw [Mem.write_same, Mem.write_same]
  frame := by
    intro m i hi
    exact Mem.write_of_ne m b (by omega)

theorem overwrites_store32 (off : Nat) (w : UInt32) :
    Overwrites (Mem.store32 · off w) off 4 where
  determined := by
    intro m m' i hi
    rw [Mem.store32_of_mem _ _ hi, Mem.store32_of_mem _ _ hi]
  frame := by
    intro m i hi
    exact Mem.store32_of_not_mem m w hi

theorem overwrites_memcpy (off : Nat) (src : Mem) (soff n : Nat) :
    Overwrites (Mem.memcpy · off src soff n) off n where
  determined := by
    intro m m' i hi
    rw [Mem.memcpy_of_mem _ _ hi, Mem.memcpy_of_mem _ _ hi]
  frame := by
    intro m i hi
    exact Mem.memcpy_of_not_mem m src hi

section Composition
variable {f g : Mem → Mem} {off off' n n' k : Nat}

/-- **Writes that touch each other add up**: `g` after `f`, where `g` starts inside what `f`
overwrites or right behind it. -/
theorem Overwrites.comp (hg : Overwrites g off' n') (hf : Overwrites f off n)
    (hoff : off ≤ off' ∧ off' ≤ off + n) (hk : off + k = max (off + n) (off' + n')) :
    Overwrites (fun m => g (f m)) off k where
  determined := by
    intro m m' i hi
    by_cases hin : off' ≤ i ∧ i < off' + n'
    · exact hg.determined _ _ i hin
    · rw [hg.frame _ i hin, hg.frame _ i hin]
      exact hf.determined _ _ i (by omega)
  frame := by
    intro m i hi
    rw [hg.frame _ i (by omega)]
    exact hf.frame m i (by omega)

/-- A byte that is overwritten is not left alone. -/
theorem Overwrites.le (h : Overwrites f off n) (h' : Overwrites f off n') : n ≤ n' := by
  by_contra hlt
  have hdet := h.determined (fun _ => 0) (fun _ => 1) (off + n') (by omega)
  rw [h'.frame _ _ (by omega), h'.frame _ _ (by omega)] at hdet
  exact absurd hdet (by decide)

/-- **The number of bytes overwritten is determined by the function.** -/
theorem Overwrites.unique (h : Overwrites f off n) (h' : Overwrites f off n') : n = n' :=
  Nat.le_antisymm (h.le h') (h'.le h)

end Composition
end Bytes
