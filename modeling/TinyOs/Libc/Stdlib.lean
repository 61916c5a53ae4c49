import TinyOs.Basic
import TinyOs.Lib.HeapOrder
import Mathlib.Data.List.TakeWhile
import Mathlib.Data.Nat.Digits.Defs

/-!
`atoi`, sorting and searching, `lib/stdlib.c`.

`atoi` is modelled over the bytes of its string. Each `int` operation of its digit loop is
checked, and one out of `int`, which C leaves undefined, is `none` (`intResult`).

* `foldlM_atoiStep`: from `-n`, the digit loop stays within `int` while the value read is at most
  `2 ^ 31`, and ends at that value negated;
* `atoi_parses`: after white space, an optional sign and the digits of a value in `int`, `atoi`
  returns the value, `INT_MIN` included, with no `int` operation overflowing.

In sorting and searching, arrays hold `cnt` elements of `size` bytes, and `compare`
(here `cmp`) is a function of the elements it is handed. `qsort` and `bsearch` are `sort` and
`binary_search` through `compare_thunk`. Each loop is given `fuel` rounds, and `none` is a run out
of them.

`sort` is a heap sort, which names the elements by 1-based index. They are modelled as blocks:
`blocks k` is the element with index `k`, at `array + (k - 1) * size`, so that `blocks 0` is the
element-sized block just below the array; `do_swap` exchanges two blocks byte by byte. The
indexes are `size_t`, 32 bits wide.

* `heapifyMax_of_lt`: below `2 ^ 31` the children of `i` are `2 * i` and `2 * i + 1`;
  `heapifyMax_mem`, `heapifyMax_spec`: the `max` a round of `heapify` picks is `i` itself, or a
  child in the heap after it, and at or after every child in the heap;
* `heapify_spec`: from a heap but at `i`, `heapify` sifts the element at `i` down to a heap,
  permuting only `[i, cnt]`; `heapify_agree`: it reads and writes nothing outside `[1, cnt]`;
* `sort_sorts`: for fewer than `2 ^ 31` elements, `sort` leaves the elements at `[1, cnt]`
  permuted into nondecreasing order and every other block in place; `sort_agree`: what it
  leaves at `[1, cnt]` depends on the blocks there alone;
* `sort_writes_below_array`: at `2 ^ 31` elements `2 * i` wraps to `0` in `size_t`, and the
  first `heapify` of the build swaps the block below the array into it.

`binary_search` narrows the pointers `first` and `last` to the elements it has still to look at;
`elemAt p` is the element at address `p`, and NULL is `0`.

* `searchLoop_succ_index`: a round of its loop over the indexes of `first` and `last`;
* `SearchInv`: `key` is after every element before `first` and before every element from
  `last` on, kept by each round (`SearchInv.left`, `SearchInv.right`);
* `binary_search_finds`: over a sorted array `binary_search` ends, returns a pointer to an
  element comparing equal to `key` if there is one and NULL otherwise, and compares `key` against
  elements of the array only.
-/

namespace TinyOs

namespace Libc

/-! ### `atoi` -/

/-- `isspace (c)`, `lib/ctype.h`: a space, `\f`, `\n`, `\r`, `\t` or `\v`. -/
def isspace (c : UInt8) : Bool := c = 32 || c = 12 || c = 10 || c = 13 || c = 9 || c = 11

/-- `isdigit (c)`, `lib/ctype.h`. -/
def isdigit (c : UInt8) : Bool := 48 ≤ c && c ≤ 57

/-- The result of an `int` operation: `none` outside `int`, where C leaves it undefined. -/
def intResult (v : ℤ) : Option ℤ := if -2 ^ 31 ≤ v ∧ v < 2 ^ 31 then some v else none

/-- A round of `atoi`'s digit loop, `value = value * 10 - (*s - '0');`, in `int`. -/
def atoiStep (value : ℤ) (c : UInt8) : Option ℤ := do
  let v ← intResult (value * 10)
  intResult (v - ((c.toNat : ℤ) - 48))

/-- `atoi`'s sign: `+` is skipped, `-` skipped and `negative` set. -/
def atoiSign : List UInt8 → Bool × List UInt8
  | 43 :: s => (false, s)
  | 45 :: s => (true, s)
  | s => (false, s)

/-- `atoi (s)` over the bytes of `s`: the white space skipped, the sign, the digits accumulated
negated, since `INT_MIN` is in `int` and its negation is not, and the value negated at the end
unless the sign was `-`. -/
def atoi (s : List UInt8) : Option ℤ := do
  let (negative, s) := atoiSign (s.dropWhile isspace)
  let value ← (s.takeWhile isdigit).foldlM atoiStep 0
  if negative then some value else intResult (-value)

/-- The value of a run of decimal digits, the most significant first. -/
def decimalValue (ds : List UInt8) : ℕ := Nat.ofDigits 10 (ds.reverse.map fun c => c.toNat - 48)

lemma isdigit_iff {c : UInt8} : isdigit c ↔ 48 ≤ c.toNat ∧ c.toNat ≤ 57 := by
  simp [isdigit, UInt8.le_iff_toNat_le]

/-- A digit is neither white space nor a sign. -/
lemma isdigit_not_space_sign {c : UInt8} (h : isdigit c) :
    isspace c = false ∧ c ≠ 43 ∧ c ≠ 45 := by
  rw [isdigit_iff] at h
  simp only [isspace, ne_eq, ← UInt8.toNat_inj, Bool.or_eq_false_iff, decide_eq_false_iff_not,
    UInt8.toNat_ofNat]
  omega

lemma decimalValue_cons (c : UInt8) (ds : List UInt8) :
    decimalValue (c :: ds) = (c.toNat - 48) * 10 ^ ds.length + decimalValue ds := by
  rw [decimalValue, decimalValue, List.reverse_cons, List.map_append, Nat.ofDigits_append,
    List.map_singleton, Nat.ofDigits_singleton, List.length_map, List.length_reverse,
    Nat.add_comm, Nat.mul_comm]

/-- A round from `-n` stays within `int` while `n * 10` plus the digit is at most `2 ^ 31`. -/
lemma atoiStep_of_le {n : ℕ} {c : UInt8} (hc : isdigit c) (h : n * 10 + (c.toNat - 48) ≤ 2 ^ 31) :
    atoiStep (-(n : ℤ)) c = some (-((n * 10 + (c.toNat - 48) : ℕ) : ℤ)) := by
  have hd := isdigit_iff.mp hc
  have hmul : intResult (-(n : ℤ) * 10) = some (-(n : ℤ) * 10) := if_pos (by omega)
  have hsub : intResult (-(n : ℤ) * 10 - ((c.toNat : ℤ) - 48)) =
      some (-((n * 10 + (c.toNat - 48) : ℕ) : ℤ)) := by
    rw [intResult, if_pos (by omega)]
    congr 1
    omega
  rw [atoiStep, hmul, Option.bind_eq_bind, Option.bind_some, hsub]

/-- The digit loop from `-n` over the digits `ds`: while the value read so far is at most
`2 ^ 31` no `int` operation overflows, and the loop ends at that value negated. The induction is
on the digits, with the value read before them. -/
lemma foldlM_atoiStep : ∀ (ds : List UInt8) (n : ℕ), (∀ c ∈ ds, isdigit c) →
    n * 10 ^ ds.length + decimalValue ds ≤ 2 ^ 31 →
      ds.foldlM atoiStep (-(n : ℤ)) = some (-((n * 10 ^ ds.length + decimalValue ds : ℕ) : ℤ))
  | [], n, _, _ => by simp [decimalValue]
  | c :: ds, n, hds, hle => by
    have hc := hds c List.mem_cons_self
    -- the value read once `c` is read, and the bound on it
    have hval : (n * 10 + (c.toNat - 48)) * 10 ^ ds.length + decimalValue ds =
        n * 10 ^ (c :: ds).length + decimalValue (c :: ds) := by
      rw [decimalValue_cons, List.length_cons, Nat.pow_succ, Nat.add_mul, Nat.mul_assoc,
        Nat.mul_comm 10, Nat.add_assoc]
    have hstep : n * 10 + (c.toNat - 48) ≤ 2 ^ 31 :=
      calc n * 10 + (c.toNat - 48)
          ≤ (n * 10 + (c.toNat - 48)) * 10 ^ ds.length :=
            Nat.le_mul_of_pos_right _ (Nat.pow_pos (by decide))
        _ ≤ (n * 10 + (c.toNat - 48)) * 10 ^ ds.length + decimalValue ds := Nat.le_add_right _ _
        _ ≤ 2 ^ 31 := hval ▸ hle
    rw [List.foldlM_cons, atoiStep_of_le hc hstep, Option.bind_eq_bind, Option.bind_some,
      foldlM_atoiStep ds _ (fun c hc => hds c (List.mem_cons_of_mem _ hc)) (hval ▸ hle), hval]

/-- What `atoi` skips as white space: all of `ws`, up to a byte that is not. -/
lemma dropWhile_isspace {ws l : List UInt8} (hws : ∀ c ∈ ws, isspace c)
    (hl : ∀ c ∈ l.head?, isspace c = false) : (ws ++ l).dropWhile isspace = l := by
  rw [List.dropWhile_append, if_pos (by simpa [List.dropWhile_eq_nil_iff] using hws),
    List.dropWhile_eq_self_iff]
  intro hpos
  cases l with
  | nil => exact absurd hpos (Nat.lt_irrefl 0)
  | cons c l => simpa using hl c rfl

/-- A byte that is no sign leaves `negative` clear and the bytes as they are. -/
lemma atoiSign_of_head {l : List UInt8} (hl : ∀ c ∈ l.head?, c ≠ 43 ∧ c ≠ 45) :
    atoiSign l = (false, l) := by
  cases l with
  | nil => rfl
  | cons c l =>
    obtain ⟨h43, h45⟩ := hl c rfl
    simp [atoiSign, h43, h45]

/-- What `atoi`'s digit loop reads: the digits `ds`, up to a byte that is not one. -/
lemma takeWhile_isdigit {ds rest : List UInt8} (hds : ∀ c ∈ ds, isdigit c)
    (hrest : ∀ c ∈ rest.head?, isdigit c = false) : (ds ++ rest).takeWhile isdigit = ds := by
  rw [List.takeWhile_append_of_pos hds, List.takeWhile_eq_nil_iff.mpr, List.append_nil]
  intro hpos
  cases rest with
  | nil => exact absurd hpos (Nat.lt_irrefl 0)
  | cons c rest => simpa using hrest c rfl

/-- **`atoi` parses decimal integers.** After white space, an optional sign and a run of decimal
digits whose value, with the sign, is in `int`, and before a byte that is not a digit, `atoi`
returns that value, `INT_MIN` included: no `int` operation of its loop overflows. With neither a
sign nor a digit, the byte after the white space is no more white space nor a sign. -/
theorem atoi_parses {ws sign ds rest : List UInt8} (hws : ∀ c ∈ ws, isspace c)
    (hsign : sign = [] ∨ sign = [43] ∨ sign = [45]) (hds : ∀ c ∈ ds, isdigit c)
    (hrest : ∀ c ∈ rest.head?, isdigit c = false)
    (hbare : sign = [] → ds = [] → ∀ c ∈ rest.head?, isspace c = false ∧ c ≠ 43 ∧ c ≠ 45)
    (hint : -2 ^ 31 ≤ (if sign = [45] then -(decimalValue ds : ℤ) else decimalValue ds) ∧
      (if sign = [45] then -(decimalValue ds : ℤ) else decimalValue ds) < 2 ^ 31) :
    atoi (ws ++ sign ++ ds ++ rest) =
      some (if sign = [45] then -(decimalValue ds : ℤ) else decimalValue ds) := by
  -- the byte after the sign is a digit, or the one after the digits
  have hhead : ∀ c ∈ (ds ++ rest).head?, sign = [] → isspace c = false ∧ c ≠ 43 ∧ c ≠ 45 := by
    intro c hc hnil
    cases ds with
    | nil => exact hbare hnil rfl c hc
    | cons d ds =>
      obtain rfl : d = c := by simpa using hc
      exact isdigit_not_space_sign (hds d List.mem_cons_self)
  -- the white space ends at the sign, or at the byte after it, which `atoi` reads as its sign
  obtain ⟨hsign', hspace⟩ : atoiSign (sign ++ ds ++ rest) = (decide (sign = [45]), ds ++ rest) ∧
      ∀ c ∈ (sign ++ ds ++ rest).head?, isspace c = false := by
    rcases hsign with rfl | rfl | rfl
    · exact ⟨atoiSign_of_head fun c hc => (hhead c hc rfl).2, fun c hc => (hhead c hc rfl).1⟩
    · exact ⟨rfl, by simp [isspace]⟩
    · exact ⟨rfl, by simp [isspace]⟩
  -- the digits' value is at most `2 ^ 31`, so the loop ends at it negated
  have hbound : decimalValue ds ≤ 2 ^ 31 := by
    split_ifs at hint <;> omega
  have hloop := foldlM_atoiStep ds 0 hds (by simpa using hbound)
  simp only [Nat.zero_mul, Nat.zero_add, Nat.cast_zero, neg_zero] at hloop
  rw [atoi, List.append_assoc, List.append_assoc, ← List.append_assoc sign,
    dropWhile_isspace hws hspace, hsign']
  simp only [takeWhile_isdigit hds hrest, hloop, Option.bind_eq_bind, Option.bind_some]
  by_cases hneg : sign = [45]
  · simp [hneg]
  · rw [if_neg hneg] at hint ⊢
    simp only [hneg, decide_false, Bool.false_eq_true, if_false, neg_neg, intResult]
    rw [if_pos hint]

/-- `" -2147483648"`, then its NUL: `INT_MIN`, read with no overflow. -/
theorem atoi_parses_int_min :
    atoi [32, 45, 50, 49, 52, 55, 52, 56, 51, 54, 52, 56, 0] = some (-2147483648) :=
  (@atoi_parses [32] [45] [50, 49, 52, 55, 52, 56, 51, 54, 52, 56] [0] (by simp [isspace])
    (by decide) (by simp [isdigit]) (by simp [isdigit]) (by decide) (by decide)).trans (by decide)

open HeapOrder

variable {α : Type} (cmp : α → α → ℤ)

/-- `compare_thunk (a, b, aux)`: `qsort`'s `compare`, passed to `sort` as its `aux`. -/
def compareThunk (a b : α) : ℤ := cmp a b

/-- `do_swap (array, a_idx, b_idx, size)`: the blocks with indexes `a_idx` and `b_idx` are
exchanged. -/
def doSwap (blocks : ℕ → α) (aIdx bIdx : ℕ) : ℕ → α := blocks ∘ Equiv.swap aIdx bIdx

/-- `do_compare (array, a_idx, b_idx, size, compare, aux)`. -/
def doCompare (blocks : ℕ → α) (aIdx bIdx : ℕ) : ℤ := cmp (blocks aIdx) (blocks bIdx)

/-- The index a round of `heapify` sets `max` to: that of the largest element among `i` and its
children `left` and `right` that are at most `cnt`, `i` on ties. -/
def heapifyMax (cnt : ℕ) (blocks : ℕ → α) (i : ℕ) : ℕ :=
  let left := wrap32 (2 * i)
  let right := wrap32 (2 * i + 1)
  let max := if left ≤ cnt ∧ 0 < doCompare cmp blocks left i then left else i
  if right ≤ cnt ∧ 0 < doCompare cmp blocks right max then right else max

/-- `heapify (array, i, cnt, size, compare, aux)`: while `max` is not `i`, the element at `i` is
swapped with the one at `max` and `i` moves there. -/
def heapify (cnt : ℕ) : ℕ → (ℕ → α) → ℕ → Option (ℕ → α)
  | 0, _, _ => none
  | fuel + 1, blocks, i =>
    let max := heapifyMax cmp cnt blocks i
    if max = i then some blocks else heapify cnt fuel (doSwap blocks i max) max

/-- The first loop of `sort`, building a heap: `heapify` at `i`, from the given `i` down to `1`. -/
def buildLoop (cnt fuel : ℕ) : ℕ → (ℕ → α) → Option (ℕ → α)
  | 0, blocks => some blocks
  | i + 1, blocks => (heapify cmp cnt fuel blocks (i + 1)).bind (buildLoop cnt fuel i)

/-- The second loop of `sort`, from the given `i` down to `2`: the element at `1` swapped with the
one at `i`, then `heapify` at `1` over the first `i - 1` elements. -/
def sortLoop (fuel : ℕ) : ℕ → (ℕ → α) → Option (ℕ → α)
  | i + 2, blocks =>
    (heapify cmp (i + 1) fuel (doSwap blocks 1 (i + 2)) 1).bind (sortLoop fuel (i + 1))
  | _, blocks => some blocks

/-- `sort (array, cnt, size, compare, aux)`; `none` also for a failed `ASSERT (size > 0)`. -/
def sort (blocks : ℕ → α) (cnt size fuel : ℕ) : Option (ℕ → α) :=
  if size = 0 then none
  else (buildLoop cmp cnt fuel (cnt / 2) blocks).bind (sortLoop cmp fuel cnt)

/-- `qsort (array, cnt, size, compare)`. -/
def qsort (blocks : ℕ → α) (cnt size fuel : ℕ) : Option (ℕ → α) :=
  sort (compareThunk cmp) blocks cnt size fuel

/-! ### A round of `heapify` -/

/-- An `if` of `heapify` that moves `max` from `m` moves it to `c`, in the heap and after `m`. -/
lemma pick_moved (blocks : ℕ → α) (cnt c m : ℕ) :
    (if c ≤ cnt ∧ 0 < doCompare cmp blocks c m then c else m) ≠ m →
      (if c ≤ cnt ∧ 0 < doCompare cmp blocks c m then c else m) = c ∧ c ≤ cnt ∧
        0 < cmp (blocks c) (blocks m) := by
  split_ifs with h
  · exact fun _ => ⟨rfl, h⟩
  · exact fun hne => absurd rfl hne

/-- Below `2 ^ 31` neither child index of a round wraps. -/
lemma heapifyMax_of_lt (blocks : ℕ → α) {cnt i : ℕ} (hi : i < 2 ^ 31) :
    heapifyMax cmp cnt blocks i =
      let max := if 2 * i ≤ cnt ∧ 0 < doCompare cmp blocks (2 * i) i then 2 * i else i
      if 2 * i + 1 ≤ cnt ∧ 0 < doCompare cmp blocks (2 * i + 1) max then 2 * i + 1 else max := by
  rw [heapifyMax, wrap32_of_lt (by omega), wrap32_of_lt (by omega)]

/-- The `max` of a round below `2 ^ 31` is `i` or a child of `i` in the heap. -/
lemma heapifyMax_mem (blocks : ℕ → α) {cnt i : ℕ} (hcnt : cnt < 2 ^ 31) (hi : i ≤ cnt) :
    heapifyMax cmp cnt blocks i = i ∨
      (heapifyMax cmp cnt blocks i / 2 = i ∧ heapifyMax cmp cnt blocks i ≤ cnt) := by
  rw [heapifyMax_of_lt cmp blocks (by omega)]
  dsimp only
  split_ifs <;> omega

section Round

variable {cmp} (hcmp : CmpOrder cmp)
include hcmp

/-- After an `if` of `heapify` on the child `c`, `max` is at or after where it was, and at or
after `c` when `c` is in the heap. -/
lemma pick_spec (blocks : ℕ → α) (cnt c m : ℕ) :
    cmp (blocks m) (blocks (if c ≤ cnt ∧ 0 < doCompare cmp blocks c m then c else m)) ≤ 0 ∧
      (c ≤ cnt →
        cmp (blocks c) (blocks (if c ≤ cnt ∧ 0 < doCompare cmp blocks c m then c else m)) ≤ 0) := by
  split_ifs with h
  · exact ⟨hcmp.le_of_pos h.2, fun _ => hcmp.le_refl _⟩
  · refine ⟨hcmp.le_refl _, fun hc => ?_⟩
    exact hcmp.le_of_not_neg fun hneg => h ⟨hc, (hcmp.pos_iff_neg (blocks c) (blocks m)).mpr hneg⟩

/-- The `max` of a round is after the element at `i` when it is not `i`, and at or after every
child of `i` in the heap. -/
lemma heapifyMax_spec (blocks : ℕ → α) {cnt i : ℕ} (hcnt : cnt < 2 ^ 31) (hi : i ≤ cnt) :
    (heapifyMax cmp cnt blocks i ≠ i →
        0 < cmp (blocks (heapifyMax cmp cnt blocks i)) (blocks i)) ∧
      ∀ c, c ≤ cnt → c / 2 = i → cmp (blocks c) (blocks (heapifyMax cmp cnt blocks i)) ≤ 0 := by
  rw [heapifyMax_of_lt cmp blocks (by omega)]
  dsimp only
  -- `m₁` is `max` after the `if` on `left`, `m` after the one on `right`
  obtain ⟨-, hl₁⟩ := pick_spec hcmp blocks cnt (2 * i) i
  have q₁ := pick_moved cmp blocks cnt (2 * i) i
  generalize (if 2 * i ≤ cnt ∧ 0 < doCompare cmp blocks (2 * i) i then 2 * i else i) = m₁
    at hl₁ q₁ ⊢
  obtain ⟨h₁₂, hr₂⟩ := pick_spec hcmp blocks cnt (2 * i + 1) m₁
  have q₂ := pick_moved cmp blocks cnt (2 * i + 1) m₁
  generalize (if 2 * i + 1 ≤ cnt ∧ 0 < doCompare cmp blocks (2 * i + 1) m₁ then 2 * i + 1
    else m₁) = m at h₁₂ hr₂ q₂ ⊢
  constructor
  · intro hmi
    by_cases hm : m = m₁
    · subst hm
      obtain ⟨rfl, -, hpos⟩ := q₁ hmi
      exact hpos
    · obtain ⟨rfl, -, hpos⟩ := q₂ hm
      by_cases hmi₁ : m₁ = i
      · rwa [hmi₁] at hpos
      · obtain ⟨rfl, -, hpos₁⟩ := q₁ hmi₁
        exact hcmp.pos_trans hpos hpos₁
  · intro c hc hci
    rcases (show c = 2 * i ∨ c = 2 * i + 1 by omega) with rfl | rfl
    · exact hcmp.le_trans _ _ _ (hl₁ hc) h₁₂
    · exact hr₂ hc

end Round

/-! ### `heapify` -/

lemma heapify_succ (cnt fuel : ℕ) (blocks : ℕ → α) (i : ℕ) :
    heapify cmp cnt (fuel + 1) blocks i =
      if heapifyMax cmp cnt blocks i = i then some blocks
      else heapify cmp cnt fuel (doSwap blocks i (heapifyMax cmp cnt blocks i))
        (heapifyMax cmp cnt blocks i) := rfl

/-- From a heap from `lo` but at `i`, `heapify` at `i` ends, within as many rounds as there are
elements from `i` on, in a heap from `lo`, having permuted only `[i, cnt]`. By induction on the
fuel: each round moves the hole one level down, by `SiftOrder.swap`, or closes it. -/
lemma heapify_spec {cmp : α → α → ℤ} (hcmp : CmpOrder cmp) {cnt lo : ℕ} (hcnt : cnt < 2 ^ 31)
    (hlo : 1 ≤ lo) :
    ∀ fuel {blocks : ℕ → α} {i : ℕ}, lo ≤ i → i ≤ cnt → cnt < fuel + i →
      SiftOrder cmp blocks lo cnt i →
      ∃ blocks', heapify cmp cnt fuel blocks i = some blocks' ∧ HeapFrom cmp blocks' lo cnt ∧
        PermOn i cnt blocks blocks'
  | 0, _, _, _, hi, hfuel, _ => absurd hfuel (by omega)
  | fuel + 1, blocks, i, hloi, hi, hfuel, hs => by
    have hmem := heapifyMax_mem cmp blocks hcnt hi
    obtain ⟨hafter, hchildren⟩ := heapifyMax_spec hcmp blocks hcnt hi
    rw [heapify_succ]
    generalize heapifyMax cmp cnt blocks i = m at hmem hafter hchildren
    by_cases hmi : m = i
    · -- no child is after the element at `i`: the hole is closed where it is
      subst hmi
      refine ⟨blocks, by rw [if_pos rfl], hs.finish fun c _ hc hci => ?_, PermOn.refl _ _ _⟩
      exact hchildren c hc hci
    · -- `max` is a child after the element at `i`: swap, and sift on from there
      obtain ⟨hmj, hm⟩ := hmem.resolve_left hmi
      have hs' := hs.swap hcmp hloi (by omega) hmj hm (hafter hmi)
        fun c _ hc hci => hchildren c hc hci
      obtain ⟨blocks', hrun, hheap, hperm⟩ :=
        heapify_spec hcmp hcnt hlo fuel (by omega) hm (by omega) hs'
      refine ⟨blocks', by rw [if_neg hmi]; exact hrun, hheap, ?_⟩
      exact (PermOn.swap ⟨le_rfl, hi⟩ ⟨by omega, hm⟩ blocks).trans (hperm.mono (by omega) le_rfl)

/-- `heapifyMax` reads the blocks at `[1, cnt]` only. -/
lemma heapifyMax_congr {cnt i : ℕ} {b₁ b₂ : ℕ → α} (hcnt : cnt < 2 ^ 31) (hi1 : 1 ≤ i)
    (hi : i ≤ cnt) (h : AgreeOn 1 cnt b₁ b₂) :
    heapifyMax cmp cnt b₁ i = heapifyMax cmp cnt b₂ i := by
  -- an `if` compares two blocks only when its child is at most `cnt`
  have hpick : ∀ c m, 1 ≤ c → 1 ≤ m → m ≤ cnt →
      (if c ≤ cnt ∧ 0 < doCompare cmp b₁ c m then c else m) =
        if c ≤ cnt ∧ 0 < doCompare cmp b₂ c m then c else m := by
    intro c m hc hm1 hm
    by_cases hcc : c ≤ cnt
    · have hcompare : doCompare cmp b₁ c m = doCompare cmp b₂ c m := by
        simp only [doCompare, h c hc hcc, h m hm1 hm]
      rw [hcompare]
    · simp only [hcc, false_and, if_false]
  rw [heapifyMax_of_lt cmp b₁ (by omega), heapifyMax_of_lt cmp b₂ (by omega)]
  dsimp only
  rw [hpick (2 * i) i (by omega) hi1 hi]
  apply hpick (2 * i + 1) _ (by omega)
  · split_ifs <;> omega
  · split_ifs with hc
    · exact hc.1
    · exact hi

/-- `heapify` reads and writes nothing outside `[1, cnt]`: from two arrays that agree on
`[1, N]`, `N` at least `cnt`, it leaves two that agree there. By induction on the fuel, each
round picking the same `max` in both and swapping the same two blocks. -/
lemma heapify_agree {cnt N : ℕ} (hcnt : cnt < 2 ^ 31) (hN : cnt ≤ N) :
    ∀ fuel {b₁ b₂ r₁ : ℕ → α} {i : ℕ}, 1 ≤ i → i ≤ cnt → AgreeOn 1 N b₁ b₂ →
      heapify cmp cnt fuel b₁ i = some r₁ →
      ∃ r₂, heapify cmp cnt fuel b₂ i = some r₂ ∧ AgreeOn 1 N r₁ r₂
  | 0, _, _, _, _, _, _, _, hrun => by simp [heapify] at hrun
  | fuel + 1, b₁, b₂, r₁, i, hi1, hi, hagree, hrun => by
    have hmax := heapifyMax_congr cmp hcnt hi1 hi fun k hk1 hk => hagree k hk1 (by omega)
    have hmem := heapifyMax_mem cmp b₁ hcnt hi
    rw [heapify_succ] at hrun ⊢
    rw [← hmax]
    generalize heapifyMax cmp cnt b₁ i = m at hmem hrun ⊢
    by_cases hmi : m = i
    · rw [if_pos hmi] at hrun ⊢
      obtain rfl := Option.some.inj hrun
      exact ⟨b₂, rfl, hagree⟩
    · rw [if_neg hmi] at hrun ⊢
      have hm := hmem.resolve_left hmi
      exact heapify_agree hcnt hN fuel (by omega) hm.2
        (hagree.swap ⟨hi1, by omega⟩ ⟨by omega, by omega⟩) hrun

/-! ### `sort` -/

/-- The build loop from `i` down, over a heap from `i + 1`, ends in a heap from `1`, having
permuted only `[1, cnt]`. By induction on `i`, each `heapify` extending the heap one position
down (`heapify_spec` from `SiftOrder.start`). -/
lemma buildLoop_spec {cmp : α → α → ℤ} (hcmp : CmpOrder cmp) {cnt fuel : ℕ}
    (hcnt : cnt < 2 ^ 31) (hfuel : cnt < fuel) :
    ∀ i {blocks : ℕ → α}, i ≤ cnt / 2 → HeapFrom cmp blocks (i + 1) cnt →
      ∃ blocks', buildLoop cmp cnt fuel i blocks = some blocks' ∧ HeapFrom cmp blocks' 1 cnt ∧
        PermOn 1 cnt blocks blocks'
  | 0, blocks, _, hheap => ⟨blocks, rfl, hheap, PermOn.refl _ _ _⟩
  | i + 1, blocks, hi, hheap => by
    obtain ⟨b₁, hrun₁, hheap₁, hperm₁⟩ :=
      heapify_spec hcmp hcnt (by omega) fuel le_rfl (by omega) (by omega) (SiftOrder.start hheap)
    obtain ⟨b₂, hrun₂, hheap₂, hperm₂⟩ := buildLoop_spec hcmp hcnt hfuel i (by omega) hheap₁
    refine ⟨b₂, ?_, hheap₂, (hperm₁.mono (by omega) le_rfl).trans hperm₂⟩
    rw [buildLoop, hrun₁, Option.bind_some, hrun₂]

/-- The sort loop from `i` down, over a heap at `[1, i]` below a sorted part at `[i + 1, cnt]`
that is at or after it, ends with `[1, cnt]` sorted, having permuted only `[1, cnt]`. By
induction on `i`, each round making the sorted part one longer (`PartedAt.extract`). -/
lemma sortLoop_spec {cmp : α → α → ℤ} (hcmp : CmpOrder cmp) {cnt fuel : ℕ}
    (hcnt : cnt < 2 ^ 31) (hfuel : cnt < fuel) :
    ∀ i {blocks : ℕ → α}, i ≤ cnt → HeapFrom cmp blocks 1 i → SortedOn cmp blocks (i + 1) cnt →
      PartedAt cmp blocks i cnt →
      ∃ blocks', sortLoop cmp fuel i blocks = some blocks' ∧ SortedOn cmp blocks' 1 cnt ∧
        PermOn 1 cnt blocks blocks'
  | 0, blocks, _, _, hsorted, _ => ⟨blocks, rfl, hsorted, PermOn.refl _ _ _⟩
  | 1, blocks, _, _, hsorted, hpart =>
    ⟨blocks, rfl, hsorted.of_parted le_rfl hpart, PermOn.refl _ _ _⟩
  | i + 2, blocks, hi, hheap, hsorted, hpart => by
    obtain ⟨b₁, hrun₁, hheap₁, hperm₁⟩ := heapify_spec hcmp (by omega) le_rfl fuel le_rfl
      (by omega) (by omega) (SiftOrder.start hheap.swap_root)
    have hrun₁' : heapify cmp (i + 1) fuel (doSwap blocks 1 (i + 2)) 1 = some b₁ := hrun₁
    obtain ⟨hsorted₁, hpart₁⟩ := PartedAt.extract hcmp (i := i + 1) hheap hsorted hpart hperm₁
    obtain ⟨b₂, hrun₂, hsorted₂, hperm₂⟩ :=
      sortLoop_spec hcmp hcnt hfuel (i + 1) (by omega) hheap₁ hsorted₁ hpart₁
    refine ⟨b₂, ?_, hsorted₂, ?_⟩
    · rw [sortLoop, hrun₁', Option.bind_some, hrun₂]
    · exact ((PermOn.swap ⟨le_rfl, by omega⟩ ⟨by omega, hi⟩ blocks).trans
        (hperm₁.mono le_rfl (by omega))).trans hperm₂

/-- For fewer than `2 ^ 31` elements of a positive size, with `heapify` given more rounds than
there are elements, `sort` ends, leaving the elements at `[1, cnt]` permuted into nondecreasing
order and every other block in place. -/
theorem sort_sorts {cmp : α → α → ℤ} (hcmp : CmpOrder cmp) (blocks : ℕ → α) {cnt size fuel : ℕ}
    (hcnt : cnt < 2 ^ 31) (hsize : 0 < size) (hfuel : cnt < fuel) :
    ∃ blocks', sort cmp blocks cnt size fuel = some blocks' ∧ PermOn 1 cnt blocks blocks' ∧
      SortedOn cmp blocks' 1 cnt := by
  obtain ⟨b₁, hrun₁, hheap₁, hperm₁⟩ :=
    buildLoop_spec hcmp hcnt hfuel (cnt / 2) le_rfl (heapFrom_of_half_lt (by omega))
  -- nothing is sorted yet: the sorted part `[cnt + 1, cnt]` is empty
  obtain ⟨b₂, hrun₂, hsorted₂, hperm₂⟩ := sortLoop_spec hcmp hcnt hfuel cnt le_rfl hheap₁
    (fun _ hk hkc => absurd hkc (by omega)) (fun _ _ _ _ hl hlc => absurd hlc (by omega))
  refine ⟨b₂, ?_, hperm₁.trans hperm₂, hsorted₂⟩
  rw [sort, if_neg (by omega), hrun₁, Option.bind_some, hrun₂]

/-- The build loop reads and writes nothing outside `[1, cnt]`. -/
lemma buildLoop_agree {cnt fuel : ℕ} (hcnt : cnt < 2 ^ 31) :
    ∀ i {b₁ b₂ r₁ : ℕ → α}, i ≤ cnt → AgreeOn 1 cnt b₁ b₂ →
      buildLoop cmp cnt fuel i b₁ = some r₁ →
      ∃ r₂, buildLoop cmp cnt fuel i b₂ = some r₂ ∧ AgreeOn 1 cnt r₁ r₂
  | 0, _, b₂, _, _, hagree, hrun => by
    obtain rfl := Option.some.inj hrun
    exact ⟨b₂, rfl, hagree⟩
  | i + 1, _, b₂, _, hi, hagree, hrun => by
    obtain ⟨c₁, hc₁, hrun'⟩ := Option.bind_eq_some_iff.mp hrun
    obtain ⟨c₂, hc₂, hagree'⟩ := heapify_agree cmp hcnt le_rfl fuel (by omega) hi hagree hc₁
    obtain ⟨r₂, hr₂, hagree''⟩ := buildLoop_agree hcnt i (by omega) hagree' hrun'
    exact ⟨r₂, by rw [buildLoop, hc₂, Option.bind_some, hr₂], hagree''⟩

/-- The sort loop reads and writes nothing outside `[1, cnt]`. -/
lemma sortLoop_agree {cnt fuel : ℕ} (hcnt : cnt < 2 ^ 31) :
    ∀ i {b₁ b₂ r₁ : ℕ → α}, i ≤ cnt → AgreeOn 1 cnt b₁ b₂ →
      sortLoop cmp fuel i b₁ = some r₁ →
      ∃ r₂, sortLoop cmp fuel i b₂ = some r₂ ∧ AgreeOn 1 cnt r₁ r₂
  | 0, _, b₂, _, _, hagree, hrun | 1, _, b₂, _, _, hagree, hrun => by
    obtain rfl := Option.some.inj hrun
    exact ⟨b₂, rfl, hagree⟩
  | i + 2, _, b₂, _, hi, hagree, hrun => by
    obtain ⟨c₁, hc₁, hrun'⟩ := Option.bind_eq_some_iff.mp hrun
    obtain ⟨c₂, hc₂, hagree'⟩ := heapify_agree cmp (by omega) (by omega) fuel le_rfl (by omega)
      (hagree.swap ⟨le_rfl, by omega⟩ ⟨by omega, hi⟩) hc₁
    obtain ⟨r₂, hr₂, hagree''⟩ := sortLoop_agree hcnt (i + 1) (by omega) hagree' hrun'
    exact ⟨r₂, by rw [sortLoop, doSwap, hc₂, Option.bind_some, hr₂], hagree''⟩

/-- `sort` reads and writes nothing outside `[1, cnt]`: from two arrays that agree there it
leaves two that agree there. -/
theorem sort_agree {cnt size fuel : ℕ} (hcnt : cnt < 2 ^ 31) {b₁ b₂ r₁ : ℕ → α}
    (hagree : AgreeOn 1 cnt b₁ b₂) (hrun : sort cmp b₁ cnt size fuel = some r₁) :
    ∃ r₂, sort cmp b₂ cnt size fuel = some r₂ ∧ AgreeOn 1 cnt r₁ r₂ := by
  unfold sort at hrun ⊢
  split_ifs at hrun ⊢
  obtain ⟨c₁, hc₁, hrun'⟩ := Option.bind_eq_some_iff.mp hrun
  obtain ⟨c₂, hc₂, hagree'⟩ := buildLoop_agree cmp hcnt (cnt / 2) (by omega) hagree hc₁
  obtain ⟨r₂, hr₂, hagree''⟩ := sortLoop_agree cmp hcnt cnt le_rfl hagree' hrun'
  exact ⟨r₂, by rw [hc₂, Option.bind_some, hr₂], hagree''⟩

/-! ### At `2 ^ 31` elements -/

/-- `2 ^ 31` one-byte elements, all `0` but the last, which is `1`, over a `2` in the byte below
the array. -/
def wrapBlocks (k : ℕ) : ℕ := if k = 0 then 2 else if k = 2 ^ 31 then 1 else 0

/-- At `2 ^ 31` one-byte elements compared by a total order, the first `heapify` of `sort`'s
build loop, at `2 ^ 30`, swaps its element down to `2 ^ 31`, whose `left`, `2 * 2 ^ 31`, is `0`
in `size_t`: it compares the block below the array, finds it larger and swaps it into the array,
writing outside the array; `sort` goes on from there. -/
theorem sort_writes_below_array (fuel : ℕ) :
    CmpOrder natCmp ∧
      ∃ blocks', heapify natCmp (2 ^ 31) (fuel + 3) wrapBlocks (2 ^ 30) = some blocks' ∧
        sort natCmp wrapBlocks (2 ^ 31) 1 (fuel + 3) =
          (buildLoop natCmp (2 ^ 31) (fuel + 3) (2 ^ 30 - 1) blocks').bind
            (sortLoop natCmp (fuel + 3) (2 ^ 31)) ∧
        blocks' 0 = 0 ∧ blocks' (2 ^ 31) = wrapBlocks 0 := by
  -- the three rounds: down to `2 ^ 31`, then to `0`, where `max` stays
  have hmax₁ : heapifyMax natCmp (2 ^ 31) wrapBlocks (2 ^ 30) = 2 ^ 31 := by decide
  have hmax₂ : heapifyMax natCmp (2 ^ 31) (doSwap wrapBlocks (2 ^ 30) (2 ^ 31)) (2 ^ 31) = 0 := by
    decide
  have hmax₃ : heapifyMax natCmp (2 ^ 31)
      (doSwap (doSwap wrapBlocks (2 ^ 30) (2 ^ 31)) (2 ^ 31) 0) 0 = 0 := by decide
  have hrun : heapify natCmp (2 ^ 31) (fuel + 3) wrapBlocks (2 ^ 30) =
      some (doSwap (doSwap wrapBlocks (2 ^ 30) (2 ^ 31)) (2 ^ 31) 0) := by
    rw [heapify_succ, hmax₁, if_neg (by decide), heapify_succ, hmax₂, if_neg (by decide),
      heapify_succ, hmax₃, if_pos rfl]
  refine ⟨natCmp_order, _, hrun, ?_, by decide, by decide⟩
  rw [sort, if_neg (by decide), show (2 ^ 31 / 2 : ℕ) = 2 ^ 30 - 1 + 1 by decide, buildLoop,
    show (2 ^ 30 - 1 + 1 : ℕ) = 2 ^ 30 by decide, hrun, Option.bind_some]

/-! ### `binary_search` -/

/-- The element with index `k` of an array at `array` of elements of `size` bytes. -/
def element (elemAt : ℕ → α) (array size k : ℕ) : α := elemAt (array + k * size)

/-- The loop of `binary_search (key, array, cnt, size, compare, aux)`, from the pointers `first`
and `last`. -/
def searchLoop (key : α) (elemAt : ℕ → α) (size : ℕ) : ℕ → ℕ → ℕ → Option ℕ
  | 0, _, _ => none
  | fuel + 1, first, last =>
    if first < last then
      let range := (last - first) / size
      let middle := first + range / 2 * size
      let c := cmp key (elemAt middle)
      if c < 0 then searchLoop key elemAt size fuel first middle
      else if 0 < c then searchLoop key elemAt size fuel (middle + size) last
      else some middle
    else some 0

/-- `binary_search (key, array, cnt, size, compare, aux)`. -/
def binarySearch (key : α) (elemAt : ℕ → α) (array cnt size fuel : ℕ) : Option ℕ :=
  searchLoop cmp key elemAt size fuel array (array + size * cnt)

/-- `bsearch (key, array, cnt, size, compare)`. -/
def bsearch (key : α) (elemAt : ℕ → α) (array cnt size fuel : ℕ) : Option ℕ :=
  binarySearch (compareThunk cmp) key elemAt array cnt size fuel

lemma binarySearch_eq (key : α) (elemAt : ℕ → α) (array cnt size fuel : ℕ) :
    binarySearch cmp key elemAt array cnt size fuel =
      searchLoop cmp key elemAt size fuel (array + 0 * size) (array + cnt * size) := by
  rw [binarySearch, Nat.zero_mul, Nat.add_zero, Nat.mul_comm]

/-- A round of the loop with `first` and `last` at the elements with indexes `lo` and `hi`: it
compares `key` against the element with index `lo + (hi - lo) / 2`. -/
lemma searchLoop_succ_index {size : ℕ} (hsize : 0 < size) (key : α) (elemAt : ℕ → α)
    (fuel array lo hi : ℕ) :
    searchLoop cmp key elemAt size (fuel + 1) (array + lo * size) (array + hi * size) =
      if lo < hi then
        if cmp key (elemAt (array + (lo + (hi - lo) / 2) * size)) < 0 then
          searchLoop cmp key elemAt size fuel (array + lo * size)
            (array + (lo + (hi - lo) / 2) * size)
        else if 0 < cmp key (elemAt (array + (lo + (hi - lo) / 2) * size)) then
          searchLoop cmp key elemAt size fuel (array + (lo + (hi - lo) / 2 + 1) * size)
            (array + hi * size)
        else some (array + (lo + (hi - lo) / 2) * size)
      else some 0 := by
  have hlt : array + lo * size < array + hi * size ↔ lo < hi := by
    rw [Nat.add_lt_add_iff_left]
    exact Nat.mul_lt_mul_right hsize
  -- `range` is the number of elements between the pointers
  have hmiddle : array + lo * size + (array + hi * size - (array + lo * size)) / size / 2 * size =
      array + (lo + (hi - lo) / 2) * size := by
    rw [Nat.add_sub_add_left, ← Nat.sub_mul, Nat.mul_div_cancel _ hsize, Nat.add_mul,
      Nat.add_assoc]
  have hnext : array + (lo + (hi - lo) / 2) * size + size =
      array + (lo + (hi - lo) / 2 + 1) * size := by
    rw [Nat.add_mul (lo + (hi - lo) / 2) 1, Nat.one_mul, Nat.add_assoc]
  rw [searchLoop]
  dsimp only
  rw [hmiddle, hnext]
  by_cases h : lo < hi
  · rw [if_pos (hlt.mpr h), if_pos h]
  · rw [if_neg (mt hlt.mp h), if_neg h]

/-- The interval invariant of the loop, over indexes: `lo ≤ hi ≤ cnt`, and `key` is after every
element before `lo` and before every element from `hi` on. -/
structure SearchInv (e : ℕ → α) (key : α) (cnt lo hi : ℕ) : Prop where
  le : lo ≤ hi
  le_cnt : hi ≤ cnt
  before : ∀ k < lo, 0 < cmp key (e k)
  after : ∀ k, hi ≤ k → k < cnt → cmp key (e k) < 0

/-- When the interval is empty, no element compares equal to `key`. -/
lemma SearchInv.ne_zero {cmp : α → α → ℤ} {e : ℕ → α} {key : α} {cnt lo hi : ℕ} (h : SearchInv cmp e key cnt lo hi)
    (hge : hi ≤ lo) : ∀ k < cnt, cmp key (e k) ≠ 0 := by
  intro k hk
  rcases (show k < lo ∨ hi ≤ k by omega) with hlo | hhi
  · exact Int.ne_of_gt (h.before k hlo)
  · exact Int.ne_of_lt (h.after k hhi hk)

section Search

variable {cmp} (hcmp : CmpOrder cmp) {e : ℕ → α} {key : α} {cnt : ℕ}
  (hsorted : SortedOn cmp e 0 (cnt - 1))
include hcmp hsorted

/-- `key` before the middle element is before every element from the middle on. -/
lemma SearchInv.left {lo hi : ℕ} (h : SearchInv cmp e key cnt lo hi) (hlt : lo < hi)
    (hc : cmp key (e (lo + (hi - lo) / 2)) < 0) : SearchInv cmp e key cnt lo (lo + (hi - lo) / 2) where
  le := by omega
  le_cnt := by
    have := h.le_cnt
    omega
  before := h.before
  after k hk hkc := by
    rcases (show k < hi ∨ hi ≤ k by omega) with hkhi | hhik
    · exact hcmp.neg_of_neg_of_le hc (hsorted.le hcmp (Nat.zero_le _) hk (by omega))
    · exact h.after k hhik hkc

/-- `key` after the middle element is after every element up to the middle. -/
lemma SearchInv.right {lo hi : ℕ} (h : SearchInv cmp e key cnt lo hi) (hlt : lo < hi)
    (hc : 0 < cmp key (e (lo + (hi - lo) / 2))) :
    SearchInv cmp e key cnt (lo + (hi - lo) / 2 + 1) hi where
  le := by omega
  le_cnt := h.le_cnt
  before k hk := by
    rcases (show k < lo ∨ lo ≤ k by omega) with hklo | hlok
    · exact h.before k hklo
    · have hle : cmp (e k) (e (lo + (hi - lo) / 2)) ≤ 0 := by
        have := h.le_cnt
        exact hsorted.le hcmp (Nat.zero_le _) (by omega) (by omega)
      have hafter : cmp (e k) key < 0 :=
        hcmp.neg_of_le_of_neg hle ((hcmp.pos_iff_neg _ _).mp hc)
      exact (hcmp.pos_iff_neg _ _).mpr hafter
  after := h.after

end Search

section Loop

variable {cmp} (hcmp : CmpOrder cmp) {key : α} {elemAt : ℕ → α} {array cnt size : ℕ}
  (hsorted : SortedOn cmp (element elemAt array size) 0 (cnt - 1))
include hcmp hsorted

/-- From the invariant, the loop ends within one round more than there are elements between the
pointers, with a pointer to an element comparing equal to `key`, or with NULL when there is
none. By induction on the fuel, each round keeping the invariant and shrinking the interval. -/
lemma searchLoop_spec (hsize : 0 < size) :
    ∀ fuel {lo hi : ℕ}, SearchInv cmp (element elemAt array size) key cnt lo hi → hi - lo < fuel →
      ∃ r, searchLoop cmp key elemAt size fuel (array + lo * size) (array + hi * size) = some r ∧
        ((∃ k < cnt, r = array + k * size ∧ cmp key (element elemAt array size k) = 0) ∨
          (r = 0 ∧ ∀ k < cnt, cmp key (element elemAt array size k) ≠ 0))
  | 0, _, _, _, hfuel => absurd hfuel (Nat.not_lt_zero _)
  | fuel + 1, lo, hi, h, hfuel => by
    rw [searchLoop_succ_index cmp hsize]
    by_cases hlt : lo < hi
    · rw [if_pos hlt]
      by_cases hneg : cmp key (elemAt (array + (lo + (hi - lo) / 2) * size)) < 0
      · rw [if_pos hneg]
        exact searchLoop_spec hsize fuel (h.left hcmp hsorted hlt hneg) (by omega)
      · rw [if_neg hneg]
        by_cases hpos : 0 < cmp key (elemAt (array + (lo + (hi - lo) / 2) * size))
        · rw [if_pos hpos]
          exact searchLoop_spec hsize fuel (h.right hcmp hsorted hlt hpos) (by omega)
        · -- neither before nor after: the middle element compares equal
          rw [if_neg hpos]
          have := h.le_cnt
          refine ⟨_, rfl, .inl ⟨lo + (hi - lo) / 2, by omega, rfl, ?_⟩⟩
          unfold element
          omega
    · rw [if_neg hlt]
      exact ⟨0, rfl, .inr ⟨rfl, h.ne_zero (by omega)⟩⟩

end Loop

/-- The loop compares `key` only against the elements of the array between the pointers:
memories that agree on those give the same result. By induction on the fuel. -/
lemma searchLoop_agree {key : α} {elemAt₁ elemAt₂ : ℕ → α} {array size : ℕ} (hsize : 0 < size) :
    ∀ fuel {lo hi : ℕ},
      (∀ k, lo ≤ k → k < hi → element elemAt₁ array size k = element elemAt₂ array size k) →
      searchLoop cmp key elemAt₁ size fuel (array + lo * size) (array + hi * size) =
        searchLoop cmp key elemAt₂ size fuel (array + lo * size) (array + hi * size)
  | 0, _, _, _ => rfl
  | fuel + 1, lo, hi, h => by
    rw [searchLoop_succ_index cmp hsize, searchLoop_succ_index cmp hsize]
    by_cases hlt : lo < hi
    · have hmid : elemAt₁ (array + (lo + (hi - lo) / 2) * size) =
          elemAt₂ (array + (lo + (hi - lo) / 2) * size) := h (lo + (hi - lo) / 2) (by omega) (by omega)
      rw [hmid,
        searchLoop_agree hsize fuel
          fun k (hk : lo ≤ k) (hk' : k < lo + (hi - lo) / 2) => h k hk (by omega),
        searchLoop_agree hsize fuel
          fun k (hk : lo + (hi - lo) / 2 + 1 ≤ k) (hk' : k < hi) => h k (by omega) hk']
    · simp only [hlt, if_false]

/-- Over an array of `cnt` elements of a positive size, sorted by a comparison of a total
preorder, `binary_search` ends within `cnt + 1` rounds. It returns a pointer to an element
comparing equal to `key` if there is one and NULL otherwise, and it compares `key` against the
elements of the array only: it returns the same in any memory holding the same elements there. -/
theorem binary_search_finds {cmp : α → α → ℤ} (hcmp : CmpOrder cmp) (key : α) (elemAt : ℕ → α)
    {array cnt size fuel : ℕ} (hsize : 0 < size)
    (hsorted : SortedOn cmp (element elemAt array size) 0 (cnt - 1)) (hfuel : cnt < fuel) :
    ∃ r, binarySearch cmp key elemAt array cnt size fuel = some r ∧
      ((∃ k < cnt, cmp key (element elemAt array size k) = 0) →
        ∃ k < cnt, r = array + k * size ∧ cmp key (element elemAt array size k) = 0) ∧
      ((¬ ∃ k < cnt, cmp key (element elemAt array size k) = 0) → r = 0) ∧
      ∀ elemAt₂ : ℕ → α, (∀ k < cnt, element elemAt₂ array size k = element elemAt array size k) →
        binarySearch cmp key elemAt₂ array cnt size fuel = some r := by
  have hinit : SearchInv cmp (element elemAt array size) key cnt 0 cnt :=
    ⟨Nat.zero_le _, le_rfl, fun k hk => absurd hk (Nat.not_lt_zero k),
      fun _ hk hkc => absurd hkc (by omega)⟩
  obtain ⟨r, hrun, hres⟩ := searchLoop_spec hcmp hsorted hsize fuel hinit (by omega)
  rw [← binarySearch_eq] at hrun
  refine ⟨r, hrun, fun hex => ?_, fun hnone => ?_, fun elemAt₂ hsame => ?_⟩
  · rcases hres with hfound | ⟨_, hne⟩
    · exact hfound
    · obtain ⟨k, hk, hk0⟩ := hex
      exact absurd hk0 (hne k hk)
  · rcases hres with ⟨k, hk, _, hk0⟩ | ⟨hr, _⟩
    · exact absurd ⟨k, hk, hk0⟩ hnone
    · exact hr
  · rw [binarySearch_eq, searchLoop_agree cmp hsize fuel fun k _ (hk : k < cnt) => hsame k hk,
      ← binarySearch_eq]
    exact hrun

/-- Three elements `2, 3, 4` at `8`, `12` and `16`, the element at an address being its
quarter, and the key `3`. -/
theorem binary_search_finds_three :
    ∃ r, binarySearch natCmp 3 (· / 4) 8 3 4 4 = some r ∧
      ((∃ k < 3, natCmp 3 (element (· / 4) 8 4 k) = 0) →
        ∃ k < 3, r = 8 + k * 4 ∧ natCmp 3 (element (· / 4) 8 4 k) = 0) ∧
      ((¬ ∃ k < 3, natCmp 3 (element (· / 4) 8 4 k) = 0) → r = 0) ∧
      ∀ elemAt₂ : ℕ → ℕ, (∀ k < 3, element elemAt₂ 8 4 k = element (· / 4) 8 4 k) →
        binarySearch natCmp 3 elemAt₂ 8 3 4 4 = some r :=
  binary_search_finds natCmp_order 3 (· / 4) (by decide)
    (by
      intro k _ hk
      simp only [element, natCmp]
      omega)
    (by decide)

end Libc

end TinyOs
