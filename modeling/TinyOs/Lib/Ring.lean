import Mathlib.Logic.Function.Basic
import Mathlib.Data.Fin.Basic

/-!
A ring of `n` cells with two positions in it: the cells from `tail` on, going round, up to
`head` are what the ring holds, the first at `tail`. Nothing but the two positions says how many
cells are held, so one cell is always left free: `head = tail` is an empty ring, and `head` just
behind `tail` a full one.

* `shift`: the position `k` cells on, going round; `count`: the number of cells held;
* `count_lt`, `count_eq_zero_iff`, `count_eq_iff`: at most `n - 1` cells are held, none exactly
  when the positions meet, `n - 1` exactly when `head` is just behind `tail`;
* `count_shift_head`, `count_shift_tail`: advancing `head` adds a cell, advancing `tail` takes
  one;
* `contents`: the cells held, in order, none when the positions meet (`contents_self`);
  `contents_take`: advancing `tail` over a ring that is
  not empty takes the cell at `tail` off the front; `contents_store`: writing at `head` and
  advancing it, in a ring that is not full, adds the cell written at the end.
-/

namespace Ring

variable {α : Type} {n : ℕ}

/-- Within two rounds, going round takes `n` off at most once. -/
lemma mod_eq_of_lt_two {m : ℕ} (h : m < 2 * n) : m % n = if m < n then m else m - n := by
  split_ifs with hm
  · exact Nat.mod_eq_of_lt hm
  · rw [Nat.mod_eq_sub_mod (by omega), Nat.mod_eq_of_lt (by omega)]

/-- The number of cells from `tail` on before `head`, going round. -/
def count (head tail : Fin n) : ℕ := (head.val + n - tail.val) % n

lemma count_eq (head tail : Fin n) :
    count head tail = if tail.val ≤ head.val then head.val - tail.val else head.val + n - tail.val := by
  rw [count, mod_eq_of_lt_two (by omega)]
  split_ifs <;> omega

lemma count_eq_zero_iff {head tail : Fin n} : count head tail = 0 ↔ head = tail := by
  rw [count_eq, Fin.ext_iff]
  split_ifs <;> omega

/-- The position `k` cells after `i`, going round. -/
def shift (i : Fin n) (k : ℕ) : Fin n := ⟨(i.val + k) % n, Nat.mod_lt _ i.pos⟩

/-- The cells the ring holds, from `tail` on. -/
def contents (buf : Fin n → α) (head tail : Fin n) : List α :=
  (List.range (count head tail)).map fun k => buf (shift tail k)

lemma val_shift_of_le (i : Fin n) {k : ℕ} (hk : k ≤ n) :
    (shift i k).val = if i.val + k < n then i.val + k else i.val + k - n :=
  mod_eq_of_lt_two (by omega)

@[simp] lemma shift_zero (i : Fin n) : shift i 0 = i :=
  Fin.ext (Nat.mod_eq_of_lt i.isLt)

lemma shift_shift (i : Fin n) (a b : ℕ) : shift (shift i a) b = shift i (a + b) :=
  Fin.ext (by simp only [shift, Nat.mod_add_mod, Nat.add_assoc])

/-- Positions fewer than `n` cells on from one position are distinct. -/
lemma shift_inj {i : Fin n} {a b : ℕ} (ha : a < n) (hb : b < n) (h : shift i a = shift i b) :
    a = b := by
  have h := congrArg Fin.val h
  rw [val_shift_of_le i ha.le, val_shift_of_le i hb.le] at h
  split_ifs at h <;> omega

lemma count_lt (head tail : Fin n) : count head tail < n := Nat.mod_lt _ head.pos

/-- `tail` advanced over the cells held is `head`. -/
lemma shift_count (head tail : Fin n) : shift tail (count head tail) = head := by
  apply Fin.ext
  rw [val_shift_of_le tail (count_lt head tail).le, count_eq]
  split_ifs <;> omega

lemma count_eq_iff {head tail : Fin n} : count head tail = n - 1 ↔ shift head 1 = tail := by
  have hn := head.pos
  rw [count_eq, Fin.ext_iff, val_shift_of_le head (by omega)]
  split_ifs <;> omega

/-- Advancing `head` in a ring that is not full adds a cell. -/
lemma count_shift_head {head tail : Fin n} (h : count head tail + 1 < n) :
    count (shift head 1) tail = count head tail + 1 := by
  rw [count_eq, count_eq, val_shift_of_le head (by omega)] at *
  split_ifs at * <;> omega

/-- Advancing `tail` in a ring that is not empty takes a cell. -/
lemma count_shift_tail {head tail : Fin n} (h : count head tail ≠ 0) :
    count head (shift tail 1) + 1 = count head tail := by
  have hn := tail.pos
  rw [count_eq, count_eq, val_shift_of_le tail (by omega)] at *
  split_ifs at * <;> omega

/-- A ring whose positions meet holds nothing. -/
@[simp] lemma contents_self (buf : Fin n → α) (i : Fin n) : contents buf i i = [] := by
  rw [contents, count_eq_zero_iff.mpr rfl, List.range_zero, List.map_nil]

@[simp] lemma length_contents (buf : Fin n → α) (head tail : Fin n) :
    (contents buf head tail).length = count head tail := by
  simp [contents]

/-- Advancing `tail` over a ring that is not empty takes the cell at `tail` off the front. -/
lemma contents_take (buf : Fin n → α) {head tail : Fin n} (h : head ≠ tail) :
    contents buf head tail = buf tail :: contents buf head (shift tail 1) := by
  have hcount := count_shift_tail (mt count_eq_zero_iff.mp h)
  rw [contents, contents, ← hcount, List.range_succ_eq_map, List.map_cons, List.map_map,
    shift_zero]
  congr 1
  refine List.map_congr_left fun k _ => ?_
  -- the cell `k + 1` on from `tail` is the cell `k` on from the cell after it
  rw [Function.comp_apply, shift_shift, Nat.add_comm 1 k]

/-- Writing `x` at `head` and advancing it, in a ring that is not full, adds `x` at the end. -/
lemma contents_store (buf : Fin n → α) {head tail : Fin n} (h : shift head 1 ≠ tail) (x : α) :
    contents (Function.update buf head x) (shift head 1) tail = contents buf head tail ++ [x] := by
  have hlt : count head tail + 1 < n := by
    have := count_lt head tail
    have := mt count_eq_iff.mp h
    omega
  rw [contents, contents, count_shift_head hlt, List.range_succ, List.map_append,
    List.map_singleton, shift_count, Function.update_self]
  congr 1
  refine List.map_congr_left fun k hk => Function.update_of_ne ?_ _ _
  -- the cells held lie before `head`, which is `count` cells on from `tail`
  intro hkh
  rw [← shift_count head tail] at hkh
  have hk := List.mem_range.mp hk
  exact absurd (shift_inj (by omega) (by omega) hkh) (Nat.ne_of_lt hk)

end Ring
