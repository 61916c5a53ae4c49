import Mathlib.Data.Nat.Basic

/-!
Copying a run of cells from one map `ℕ → α` into another, as `memcpy` copies bytes between
buffers and a disk driver copies a sector between a buffer and the disk: `copyRange dst d src s
n` is `dst` with its cells `d .. d + n - 1` taken from `src`'s cells `s .. s + n - 1`.

Two copies of adjacent runs are one copy of the joined run (`copyRange_adjacent`); a run copied
into a window of a buffer and read back through the window is a copy of the run
(`copyRange_window`); and a run read out of a copy lies in the copy's source
(`copyRange_of_copyRange_src`).
-/

namespace Copy

variable {α : Type*}

/-- `dst` with the `n` cells from `d` on taken from `src`, from `s` on. -/
def copyRange (dst : ℕ → α) (d : ℕ) (src : ℕ → α) (s n : ℕ) : ℕ → α :=
  fun k => if d ≤ k ∧ k < d + n then src (s + (k - d)) else dst k

variable {dst src : ℕ → α} {d s n k : ℕ}

lemma copyRange_of_mem (h : d ≤ k ∧ k < d + n) : copyRange dst d src s n k = src (s + (k - d)) :=
  if_pos h

lemma copyRange_of_not_mem (h : ¬(d ≤ k ∧ k < d + n)) : copyRange dst d src s n k = dst k :=
  if_neg h

/-- Cell `k` of the run copied. -/
lemma copyRange_add (h : k < n) : copyRange dst d src s n (d + k) = src (s + k) := by
  rw [copyRange_of_mem (by omega), Nat.add_sub_cancel_left]

@[simp] lemma copyRange_zero (dst : ℕ → α) (d : ℕ) (src : ℕ → α) (s : ℕ) :
    copyRange dst d src s 0 = dst := by
  funext k
  exact copyRange_of_not_mem (by omega)

/-- Two copies of adjacent runs are one copy of the joined run. -/
theorem copyRange_adjacent (dst : ℕ → α) (d : ℕ) (src : ℕ → α) (s n m : ℕ) :
    copyRange (copyRange dst d src s n) (d + n) src (s + n) m = copyRange dst d src s (n + m) := by
  funext k
  by_cases h₂ : d + n ≤ k ∧ k < d + n + m
  · -- a cell of the second run
    rw [copyRange_of_mem h₂, copyRange_of_mem (by omega)]
    congr 1
    omega
  · rw [copyRange_of_not_mem h₂]
    by_cases h₁ : d ≤ k ∧ k < d + n
    · rw [copyRange_of_mem h₁, copyRange_of_mem (by omega)]
    · rw [copyRange_of_not_mem h₁, copyRange_of_not_mem (by omega)]

/-- The window `d .. d + n - 1` of `dst` copied into a buffer `b`, a run of `src` copied over
the buffer at `o`, and the buffer copied back: the run copied into `dst` at `d + o`. -/
theorem copyRange_window (dst : ℕ → α) (d : ℕ) (b src : ℕ → α) {o c : ℕ} (s : ℕ)
    (hc : o + c ≤ n) :
    copyRange dst d (copyRange (copyRange b 0 dst d n) o src s c) 0 n =
      copyRange dst (d + o) src s c := by
  funext k
  by_cases hw : d ≤ k ∧ k < d + n
  · rw [copyRange_of_mem hw, Nat.zero_add]
    by_cases hr : o ≤ k - d ∧ k - d < o + c
    · -- inside the run
      rw [copyRange_of_mem hr, copyRange_of_mem (by omega)]
      congr 1
      omega
    · rw [copyRange_of_not_mem hr, copyRange_of_mem (by omega), copyRange_of_not_mem (by omega)]
      congr 1
      omega
  · rw [copyRange_of_not_mem hw, copyRange_of_not_mem (by omega)]

/-- A run read out of a buffer that holds a copy of `src` is a run of `src`. -/
theorem copyRange_of_copyRange_src (dst : ℕ → α) (d : ℕ) (b src : ℕ → α) {o c : ℕ} (s : ℕ)
    (hc : o + c ≤ n) :
    copyRange dst d (copyRange b 0 src s n) o c = copyRange dst d src (s + o) c := by
  funext k
  by_cases h : d ≤ k ∧ k < d + c
  · rw [copyRange_of_mem h, copyRange_of_mem h, copyRange_of_mem (by omega)]
    congr 1
    omega
  · rw [copyRange_of_not_mem h, copyRange_of_not_mem h]

end Copy
