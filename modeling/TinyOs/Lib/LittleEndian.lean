import Mathlib.Data.Nat.Bitwise

/-!
Arrays of 32-bit words as a little-endian machine keeps them in memory: byte `j` of a word holds
its bits `8 * j` to `8 * j + 7`, and word `i` of an array its bytes `4 * i` to `4 * i + 3`.

* `bytes`, `words`: an array laid out as bytes, and the words read back from bytes;
* `words_bytes`, `bytes_words`: reading back what was laid out gives the array again, and laying
  out what was read gives the bytes again; `words_congr`: only the bytes read matter;
* `testBit_bytes`: bit `k` of the array, counted across its words, is bit `k % 8` of byte
  `k / 8`, so the layout of the bits does not depend on the width of the words.
-/

namespace LittleEndian

/-- Byte `j` of a word, from the least significant up. -/
def byte (x : BitVec 32) (j : ℕ) : UInt8 := UInt8.ofNat (x.toNat / 2 ^ (8 * j))

/-- The word of the four bytes of `f` from `a` on, the least significant first. -/
def word (f : ℕ → UInt8) (a : ℕ) : BitVec 32 :=
  BitVec.ofNat 32 ((f a).toNat + 2 ^ 8 * (f (a + 1)).toNat + 2 ^ 16 * (f (a + 2)).toNat +
    2 ^ 24 * (f (a + 3)).toNat)

/-- An array of words in memory, byte by byte. -/
def bytes (xs : List (BitVec 32)) (k : ℕ) : UInt8 := byte (xs.getD (k / 4) 0) (k % 4)

/-- The first `n` words of the bytes `f`. -/
def words (f : ℕ → UInt8) (n : ℕ) : List (BitVec 32) :=
  (List.range n).map fun i => word f (4 * i)

lemma toNat_byte (x : BitVec 32) (j : ℕ) : (byte x j).toNat = x.toNat / 2 ^ (8 * j) % 2 ^ 8 := by
  simp [byte]

@[simp] lemma length_words (f : ℕ → UInt8) (n : ℕ) : (words f n).length = n := by
  simp [words]

lemma getD_words (f : ℕ → UInt8) {n i : ℕ} (hi : i < n) :
    (words f n).getD i 0 = word f (4 * i) := by
  rw [List.getD_eq_getElem _ _ (by simpa using hi)]
  simp [words]

lemma bytes_add (xs : List (BitVec 32)) (i : ℕ) {j : ℕ} (hj : j < 4) :
    bytes xs (4 * i + j) = byte (xs.getD i 0) j := by
  have hdiv : (4 * i + j) / 4 = i := by omega
  have hmod : (4 * i + j) % 4 = j := by omega
  rw [bytes, hdiv, hmod]

/-- The four bytes of a word make the word again. -/
lemma word_byte (x : BitVec 32) {f : ℕ → UInt8} {a : ℕ} (hf : ∀ j < 4, f (a + j) = byte x j) :
    word f a = x := by
  have h₀ := hf 0 (by decide)
  have h₁ := hf 1 (by decide)
  have h₂ := hf 2 (by decide)
  have h₃ := hf 3 (by decide)
  rw [Nat.add_zero] at h₀
  apply BitVec.eq_of_toNat_eq
  rw [word, BitVec.toNat_ofNat, h₀, h₁, h₂, h₃, toNat_byte, toNat_byte, toNat_byte, toNat_byte]
  have hx := x.isLt
  simp only [Nat.reduceMul, Nat.reducePow] at hx ⊢
  omega

/-- Byte `j` of a word read from bytes is the byte it was read from. -/
lemma byte_word (f : ℕ → UInt8) (a : ℕ) {j : ℕ} (hj : j < 4) : byte (word f a) j = f (a + j) := by
  apply UInt8.toNat_inj.mp
  have h₀ := (f a).toNat_lt
  have h₁ := (f (a + 1)).toNat_lt
  have h₂ := (f (a + 2)).toNat_lt
  have h₃ := (f (a + 3)).toNat_lt
  rw [toNat_byte, word, BitVec.toNat_ofNat]
  simp only [Nat.reducePow] at h₀ h₁ h₂ h₃ ⊢
  -- one byte at a time: the sum has no carries, each byte lying below `2 ^ 8`
  obtain rfl | rfl | rfl | rfl : j = 0 ∨ j = 1 ∨ j = 2 ∨ j = 3 := by omega
  all_goals simp only [Nat.add_zero, Nat.reduceMul, Nat.reducePow]; omega

/-- **Reading back what was laid out.** -/
theorem words_bytes (xs : List (BitVec 32)) : words (bytes xs) xs.length = xs := by
  apply List.ext_getElem (length_words _ _)
  intro i hi hi'
  rw [← List.getD_eq_getElem _ 0, getD_words _ (by simpa using hi)]
  exact word_byte _ fun j hj => by rw [bytes_add _ _ hj, List.getD_eq_getElem _ _ hi']

/-- **Laying out what was read.** The bytes of the words read are the bytes they were read
from. -/
theorem bytes_words (f : ℕ → UInt8) {n k : ℕ} (hk : k < 4 * n) : bytes (words f n) k = f k := by
  have hj : k % 4 < 4 := Nat.mod_lt _ (by decide)
  rw [bytes, getD_words _ (by omega), byte_word _ _ hj, Nat.div_add_mod]

/-- Only the bytes read matter. -/
lemma words_congr {f g : ℕ → UInt8} {n : ℕ} (h : ∀ k < 4 * n, f k = g k) :
    words f n = words g n := by
  apply List.map_congr_left
  intro i hi
  rw [List.mem_range] at hi
  simp only [word, h (4 * i) (by omega), h (4 * i + 1) (by omega), h (4 * i + 2) (by omega),
    h (4 * i + 3) (by omega)]

/-- **The bits are laid out in order.** Bit `k` of the array, bit `k % 32` of word `k / 32`, is
bit `k % 8` of byte `k / 8`. -/
theorem testBit_bytes (xs : List (BitVec 32)) (k : ℕ) :
    (bytes xs (k / 8)).toNat.testBit (k % 8) = (xs.getD (k / 32) 0).getLsbD (k % 32) := by
  have hword : k / 8 / 4 = k / 32 := by omega
  have hbit : k % 8 + 8 * (k / 8 % 4) = k % 32 := by omega
  rw [bytes, toNat_byte, Nat.testBit_mod_two_pow, Nat.testBit_div_two_pow, hword, hbit,
    decide_eq_true (Nat.mod_lt _ (by decide)), Bool.true_and, BitVec.testBit_toNat]

end LittleEndian
