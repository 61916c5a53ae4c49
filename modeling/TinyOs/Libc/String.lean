import TinyOs.Lib.Copy
import Mathlib.Data.List.TakeWhile
import Mathlib.Data.List.Forall2
import Mathlib.Data.UInt

/-!
Functions of `lib/string.c` over a memory of bytes, `ℕ → UInt8`, with pointers as addresses and
`0` for a null pointer.

* `memmove`: the forward loop when `dst < src` and the backward loop otherwise each copy the
  source bytes as they were before the call, whatever the overlap (`copyForward_eq`,
  `copyBackward_eq`); `memmove_copies`: what `memmove` leaves and returns. The forward loop
  returns its advanced pointer `dst + size`, not `dst`;
* `strchr`: the first occurrence of a byte in a string, its NUL included;
* `strtokR`: `strtok_r`, its two loops over the string at `s` or `*save_ptr`; `strtokRun`: the
  first call and the following ones with a null `s`, until one returns NULL; `Tokenised`: what
  the calls leave over a string, built a token at a time (`Tokenised.delimiters`,
  `Tokenised.last`, `Tokenised.cons`) by `strtokRun_eq`; `strtok_r_tokenises`: the calls return the maximal non-empty pieces of the string that hold
  no delimiter, each NUL-terminated in place, then NULL for good, and write nothing but the NUL
  after each token.
-/

namespace TinyOs

namespace Libc

/-! ### Bytes in memory -/

section Holds

variable {α : Type} [Inhabited α]

/-- The cells from `p` on hold the list `l`. -/
def Holds (mem : ℕ → α) (p : ℕ) (l : List α) : Prop := ∀ k < l.length, mem (p + k) = l.getD k default

variable {mem : ℕ → α} {p : ℕ}

@[simp] lemma holds_nil : Holds mem p [] := fun _ hk => absurd hk (Nat.not_lt_zero _)

lemma holds_cons {x : α} {l : List α} : Holds mem p (x :: l) ↔ mem p = x ∧ Holds mem (p + 1) l := by
  constructor
  · intro h
    refine ⟨by simpa using h 0 (by simp), fun k hk => ?_⟩
    simpa [Nat.add_assoc, Nat.add_comm 1 k] using h (k + 1) (by simpa using hk)
  · rintro ⟨hx, hl⟩ k hk
    cases k with
    | zero => simpa using hx
    | succ k =>
      rw [← Nat.add_assoc, Nat.add_right_comm]
      simpa using hl k (by simpa using hk)

lemma holds_append {l₁ l₂ : List α} :
    Holds mem p (l₁ ++ l₂) ↔ Holds mem p l₁ ∧ Holds mem (p + l₁.length) l₂ := by
  induction l₁ generalizing p with
  | nil => simp
  | cons x l₁ ih =>
    rw [List.cons_append, holds_cons, holds_cons, ih, List.length_cons, Nat.add_assoc,
      Nat.add_comm 1, and_assoc]

/-- Cells outside `[p, p + l.length)` do not matter. -/
lemma Holds.congr {mem' : ℕ → α} {l : List α} (h : Holds mem p l)
    (heq : ∀ k, p ≤ k → k < p + l.length → mem' k = mem k) : Holds mem' p l := fun k hk => by
  rw [heq (p + k) (by omega) (by omega)]
  exact h k hk

/-- Writing `y` just past `l` turns the cells holding `l ++ [x]` into cells holding `l ++ [y]`. -/
lemma Holds.update_end [DecidableEq α] {l : List α} {x y : α} (h : Holds mem p (l ++ [x])) :
    Holds (Function.update mem (p + l.length) y) p (l ++ [y]) := by
  refine holds_append.mpr ⟨(holds_append.mp h).1.congr fun k _ hk => ?_, ?_⟩
  · exact Function.update_of_ne (by omega) _ _
  · exact holds_cons.mpr ⟨Function.update_self .., holds_nil⟩

end Holds

/-! ### `memmove` -/

/-- `while (size-- > 0) *dst++ = *src++;`, with the pointer `dst` it ends at. -/
def copyForward : (ℕ → UInt8) → ℕ → ℕ → ℕ → (ℕ → UInt8) × ℕ
  | mem, dst, _, 0 => (mem, dst)
  | mem, dst, src, size + 1 =>
    copyForward (Function.update mem dst (mem src)) (dst + 1) (src + 1) size

/-- `while (size-- > 0) *--dst = *--src;` from the ends `dst` and `src` of the two ranges, with
the pointer `dst` it ends at. -/
def copyBackward : (ℕ → UInt8) → ℕ → ℕ → ℕ → (ℕ → UInt8) × ℕ
  | mem, dst, _, 0 => (mem, dst)
  | mem, dst, src, size + 1 =>
    copyBackward (Function.update mem (dst - 1) (mem (src - 1))) (dst - 1) (src - 1) size

/-- `memmove (dst, src, size)`, whose `ASSERT`s want non-null pointers unless `size` is `0`: the
memory after it and the pointer it returns, the working `dst`. -/
def memmove (mem : ℕ → UInt8) (dst src size : ℕ) : Option ((ℕ → UInt8) × ℕ) :=
  if (dst = 0 ∧ size ≠ 0) ∨ (src = 0 ∧ size ≠ 0) then none
  else if dst < src then some (copyForward mem dst src size)
  else some (copyBackward mem (dst + size) (src + size) size)

open Copy

/-- The forward loop below its source reads each source byte before any write reaches it: it
copies the bytes as they were. The induction is on the bytes left. -/
lemma copyForward_eq : ∀ (size : ℕ) (mem : ℕ → UInt8) {dst src : ℕ}, dst < src →
    copyForward mem dst src size = (copyRange mem dst mem src size, dst + size)
  | 0, mem, dst, _, _ => by simp [copyForward]
  | size + 1, mem, dst, src, h => by
    rw [copyForward, copyForward_eq size _ (by omega), Nat.add_right_comm]
    congr 1
    funext k
    -- cell `dst` takes the first source byte; the source cells above are not written
    by_cases hk : dst + 1 ≤ k ∧ k < dst + 1 + size
    · rw [copyRange_of_mem hk, copyRange_of_mem (by omega),
        Function.update_of_ne (by omega)]
      congr 1
      omega
    · rw [copyRange_of_not_mem hk]
      by_cases hd : k = dst
      · subst hd
        rw [Function.update_self, copyRange_of_mem (by omega), Nat.sub_self, Nat.add_zero]
      · rw [Function.update_of_ne hd, copyRange_of_not_mem (by omega)]

/-- The backward loop from the ends of the ranges, its source not above its destination, reads
each source byte before any write reaches it: it copies the bytes as they were. The induction
is on the bytes left. -/
lemma copyBackward_eq : ∀ (size : ℕ) (mem : ℕ → UInt8) {dst src : ℕ}, src ≤ dst →
    copyBackward mem (dst + size) (src + size) size = (copyRange mem dst mem src size, dst)
  | 0, mem, dst, _, _ => by simp [copyBackward]
  | size + 1, mem, dst, src, h => by
    rw [copyBackward, show dst + (size + 1) - 1 = dst + size by omega,
      show src + (size + 1) - 1 = src + size by omega, copyBackward_eq size _ h]
    congr 1
    funext k
    -- cell `dst + size` takes the last source byte; the source cells below are not written
    by_cases hk : dst ≤ k ∧ k < dst + size
    · rw [copyRange_of_mem hk, copyRange_of_mem (by omega),
        Function.update_of_ne (by omega)]
    · by_cases hd : k = dst + size
      · subst hd
        rw [copyRange_of_not_mem hk, Function.update_self, copyRange_of_mem (by omega)]
        congr 1
        omega
      · rw [copyRange_of_not_mem hk, Function.update_of_ne hd, copyRange_of_not_mem (by omega)]

/-- **What `memmove` does**: with non-null pointers (or nothing to copy), `memmove` copies the
`size` bytes at `src` as they were before the call to `dst`, leaves every other byte as it was,
whatever the overlap, and returns `dst + size` when `dst < src` and `dst` otherwise. -/
theorem memmove_copies (mem : ℕ → UInt8) (dst src size : ℕ) (hdst : dst ≠ 0 ∨ size = 0)
    (hsrc : src ≠ 0 ∨ size = 0) :
    memmove mem dst src size =
      some (copyRange mem dst mem src size, if dst < src then dst + size else dst) := by
  have hassert : ¬((dst = 0 ∧ size ≠ 0) ∨ (src = 0 ∧ size ≠ 0)) := by omega
  by_cases hlt : dst < src
  · simp [memmove, hassert, hlt, copyForward_eq size mem hlt]
  · simp [memmove, hassert, hlt, copyBackward_eq size mem (Nat.le_of_not_lt hlt)]

/-- `memmove (1, 2, 1)`: byte `1` takes the byte at `2`, and the pointer returned is `2`. -/
theorem memmove_returns_end_forward :
    memmove (fun _ => 0) 1 2 1 = some (copyRange (fun _ => 0) 1 (fun _ => 0) 2 1, 2) :=
  (memmove_copies (fun _ => 0) 1 2 1 (by decide) (by decide)).trans (by simp)

/-! ### `strchr` -/

/-- `strchr (string, c)` over the bytes of `string` up to its NUL: the offset of the first `c`,
the NUL itself for `c == '\0'`, or `none` for a null pointer. -/
def strchr : List UInt8 → UInt8 → Option ℕ
  | [], _ => none
  | x :: s, c => if x = c then some 0 else if x = 0 then none else (strchr s c).map (· + 1)

/-- A string finds `c` exactly when `c` is one of its bytes or the NUL. -/
lemma strchr_isSome_iff {D : List UInt8} (hD : 0 ∉ D) (c : UInt8) :
    (strchr (D ++ [0]) c).isSome ↔ c ∈ D ∨ c = 0 := by
  induction D with
  | nil => by_cases hc : c = 0 <;> simp [strchr, hc, eq_comm]
  | cons x D ih =>
    have hx : x ≠ 0 := fun h => hD (h ▸ List.mem_cons_self)
    have ih := ih fun h => hD (List.mem_cons_of_mem x h)
    by_cases hxc : x = c
    · simp [strchr, hxc]
    · simp [strchr, hxc, hx, ih, Ne.symm hxc]

lemma strchr_eq_none_iff {D : List UInt8} (hD : 0 ∉ D) (c : UInt8) :
    strchr (D ++ [0]) c = none ↔ c ∉ D ∧ c ≠ 0 := by
  rw [← Option.not_isSome_iff_eq_none, strchr_isSome_iff hD, not_or]

/-! ### `strtok_r` -/

section Strtok

variable (mem : ℕ → UInt8) (D : List UInt8)

/-- The first loop of `strtok_r`: delimiters are skipped; at the NUL, `*save_ptr = s` and NULL
is returned (`.inl s`), and otherwise the token starts at the first other byte (`.inr s`). -/
def skipDelimiters : ℕ → ℕ → Option (ℕ ⊕ ℕ)
  | 0, _ => none
  | fuel + 1, s =>
    if (strchr (D ++ [0]) (mem s)).isSome then
      if mem s = 0 then some (.inl s) else skipDelimiters fuel (s + 1)
    else some (.inr s)

/-- The second loop of `strtok_r`: the token runs up to the first delimiter or the NUL. -/
def skipToken : ℕ → ℕ → Option ℕ
  | 0, _ => none
  | fuel + 1, s => if strchr (D ++ [0]) (mem s) = none then skipToken fuel (s + 1) else some s

/-- `strtok_r (s, delimiters, &save_ptr)`, `D` the bytes of `delimiters` and each loop given
`fuel`: the token returned (`none` for NULL), the memory after the call and `*save_ptr`. A null
`s` starts from `*save_ptr`. -/
def strtokR (s : Option ℕ) (save fuel : ℕ) : Option (Option ℕ × (ℕ → UInt8) × ℕ) := do
  let s := s.getD save
  if s = 0 then none
  else
    match ← skipDelimiters mem D fuel s with
    | .inl s => some (none, mem, s)
    | .inr token => do
      let s ← skipToken mem D fuel token
      if mem s ≠ 0 then some (some token, Function.update mem s 0, s + 1)
      else some (some token, mem, s)

end Strtok

/-- `strtok_r (s, delimiters, &save_ptr)` and then `strtok_r (NULL, delimiters, &save_ptr)`
until a call returns NULL, at most `k` calls: the tokens returned, the memory and `*save_ptr`
after the last call. -/
def strtokRun (D : List UInt8) (fuel : ℕ) :
    ℕ → (ℕ → UInt8) → Option ℕ → ℕ → Option (List ℕ × (ℕ → UInt8) × ℕ)
  | 0, _, _, _ => none
  | k + 1, mem, s, save => do
    let r ← strtokR mem D s save fuel
    match r.1 with
    | none => some ([], r.2.1, r.2.2)
    | some t => do
      let rest ← strtokRun D fuel k r.2.1 none r.2.2
      some (t :: rest.1, rest.2)

/-- The maximal non-empty pieces of `s` that hold no byte of `D`, in order. -/
def tokens (D s : List UInt8) : List (List UInt8) :=
  (s.splitOnP fun x => decide (x ∈ D)).filter fun w => decide (w ≠ [])

section Tokens

variable {D : List UInt8}

@[simp] lemma tokens_nil : tokens D [] = [] := by simp [tokens]

lemma tokens_cons_of_mem {x : UInt8} (hx : x ∈ D) (s : List UInt8) :
    tokens D (x :: s) = tokens D s := by
  simp [tokens, List.splitOnP_cons_eq_if_modifyHead, hx]

lemma tokens_of_delimiters {δ : List UInt8} (hδ : ∀ x ∈ δ, x ∈ D) (s : List UInt8) :
    tokens D (δ ++ s) = tokens D s := by
  induction δ with
  | nil => rfl
  | cons x δ ih =>
    rw [List.cons_append, tokens_cons_of_mem (hδ x List.mem_cons_self),
      ih fun y hy => hδ y (List.mem_cons_of_mem x hy)]

lemma tokens_of_token {w : List UInt8} (hw : w ≠ []) (hwD : ∀ x ∈ w, x ∉ D) :
    tokens D w = [w] := by
  simp [tokens, List.splitOnP_eq_singleton (p := fun x => decide (x ∈ D)) (by simpa using hwD), hw]

lemma tokens_token_append_cons {w : List UInt8} (hw : w ≠ []) (hwD : ∀ x ∈ w, x ∉ D) {d : UInt8}
    (hd : d ∈ D) (s : List UInt8) : tokens D (w ++ d :: s) = w :: tokens D s := by
  simp [tokens, List.splitOnP_append_cons_of_forall_mem (p := fun x => decide (x ∈ D))
    (by simpa using hwD) d (by simpa using hd), hw]

/-- A string is delimiters only, or delimiters, then a token, then its end or a delimiter and
the rest. -/
lemma delimiters_token_cases (D r : List UInt8) :
    (∀ x ∈ r, x ∈ D) ∨ ∃ δ w, w ≠ [] ∧ (∀ x ∈ δ, x ∈ D) ∧ (∀ x ∈ w, x ∉ D) ∧
      (r = δ ++ w ∨ ∃ d r', d ∈ D ∧ r = δ ++ w ++ d :: r') := by
  -- the delimiters in front are `r.takeWhile (· ∈ D)`, the token `y :: rest.takeWhile (· ∉ D)`
  have hδ : ∀ x ∈ r.takeWhile (· ∈ D), x ∈ D := fun x hx => by
    simpa using List.mem_takeWhile_imp hx
  rcases hrest : r.dropWhile (· ∈ D) with _ | ⟨y, rest⟩
  · exact .inl (by simpa using List.dropWhile_eq_nil_iff.mp hrest)
  have hy : y ∉ D := by
    have hhead := List.head?_dropWhile_not (· ∈ D) r
    rw [hrest] at hhead
    simpa using hhead
  have hr : r = r.takeWhile (· ∈ D) ++ y :: rest := by
    rw [← hrest, List.takeWhile_append_dropWhile]
  have hw : ∀ x ∈ y :: rest.takeWhile (· ∉ D), x ∉ D := by
    simp only [List.mem_cons]
    rintro x (rfl | hx)
    · exact hy
    · simpa using List.mem_takeWhile_imp hx
  refine .inr ⟨_, _, List.cons_ne_nil _ _, hδ, hw, ?_⟩
  have hsplit := (List.takeWhile_append_dropWhile (p := (· ∉ D)) (l := rest)).symm
  rcases htail : rest.dropWhile (· ∉ D) with _ | ⟨d, r'⟩
  · rw [htail, List.append_nil] at hsplit
    left
    calc r = _ := hr
      _ = _ := by conv_lhs => rw [hsplit]
  · rw [htail] at hsplit
    have hd : d ∈ D := by
      have hhead := List.head?_dropWhile_not (· ∉ D) rest
      rw [htail] at hhead
      simpa using hhead
    right
    refine ⟨d, r', hd, ?_⟩
    calc r = _ := hr
      _ = _ := by
        conv_lhs => rw [hsplit]
        simp

end Tokens

section Calls

variable {mem : ℕ → UInt8} {D : List UInt8}

/-- The first loop steps over the delimiters in front, a byte a step. -/
lemma skipDelimiters_append (hD : 0 ∉ D) :
    ∀ {δ : List UInt8} {p : ℕ} (n : ℕ), (∀ x ∈ δ, x ∈ D) → Holds mem p δ →
      skipDelimiters mem D (n + δ.length) p = skipDelimiters mem D n (p + δ.length)
  | [], _, _, _, _ => rfl
  | x :: δ, p, n, hδ, hmem => by
    obtain ⟨hx, hmem⟩ := holds_cons.mp hmem
    have hxD : mem p ∈ D := hx ▸ hδ x List.mem_cons_self
    have hx0 : mem p ≠ 0 := fun h => hD (h ▸ hxD)
    rw [List.length_cons, ← Nat.add_assoc, skipDelimiters,
      if_pos ((strchr_isSome_iff hD _).mpr (.inl hxD)), if_neg hx0,
      skipDelimiters_append hD n (fun y hy => hδ y (List.mem_cons_of_mem x hy)) hmem,
      Nat.add_assoc, Nat.add_comm 1]

lemma skipDelimiters_of_nul (hD : 0 ∉ D) {q : ℕ} (hq : mem q = 0) (n : ℕ) :
    skipDelimiters mem D (n + 1) q = some (.inl q) := by
  rw [skipDelimiters, if_pos ((strchr_isSome_iff hD _).mpr (.inr hq)), if_pos hq]

lemma skipDelimiters_of_token (hD : 0 ∉ D) {q : ℕ} (hq : mem q ∉ D) (hq0 : mem q ≠ 0) (n : ℕ) :
    skipDelimiters mem D (n + 1) q = some (.inr q) := by
  rw [skipDelimiters, if_neg (by rw [strchr_isSome_iff hD]; tauto)]

/-- The second loop runs over the token to the delimiter or NUL `c` after it. -/
lemma skipToken_eq (hD : 0 ∉ D) {c : UInt8} (hc : c ∈ D ∨ c = 0) :
    ∀ {w : List UInt8} {q : ℕ} (fuel : ℕ), (∀ x ∈ w, x ∉ D ∧ x ≠ 0) → Holds mem q (w ++ [c]) →
      w.length < fuel → skipToken mem D fuel q = some (q + w.length)
  | _, _, 0, _, _, hfuel => absurd hfuel (Nat.not_lt_zero _)
  | [], q, fuel + 1, _, hmem, _ => by
    have hq : mem q = c := (holds_cons.mp hmem).1
    rw [skipToken, if_neg (by rw [strchr_eq_none_iff hD, hq]; tauto)]
    rfl
  | x :: w, q, fuel + 1, hw, hmem, hfuel => by
    obtain ⟨hx, hmem⟩ := holds_cons.mp hmem
    rw [skipToken, if_pos ((strchr_eq_none_iff hD _).mpr (hx ▸ hw x List.mem_cons_self)),
      skipToken_eq hD hc fuel (fun y hy => hw y (List.mem_cons_of_mem x hy)) hmem
        (by simpa using hfuel),
      List.length_cons, Nat.add_assoc, Nat.add_comm 1]

variable {s : Option ℕ} {save p fuel : ℕ}

/-- A call on delimiters only returns NULL and leaves `*save_ptr` on the NUL. -/
lemma strtokR_of_delimiters (hD : 0 ∉ D) (hs : s.getD save = p) (hp : p ≠ 0) {δ : List UInt8}
    (hδ : ∀ x ∈ δ, x ∈ D) (hmem : Holds mem p (δ ++ [0])) (hfuel : δ.length < fuel) :
    strtokR mem D s save fuel = some (none, mem, p + δ.length) := by
  obtain ⟨hδm, hnul⟩ := holds_append.mp hmem
  obtain ⟨n, rfl⟩ : ∃ n, fuel = n + 1 + δ.length := ⟨fuel - δ.length - 1, by omega⟩
  simp [strtokR, hs, hp, skipDelimiters_append hD (n + 1) hδ hδm,
    skipDelimiters_of_nul hD (holds_cons.mp hnul).1]

/-- Past the delimiters in front, the two loops find the token and its end. -/
lemma loops_of_token (hD : 0 ∉ D) {δ w : List UInt8} {c : UInt8} (hδ : ∀ x ∈ δ, x ∈ D)
    (hw : w ≠ []) (hwD : ∀ x ∈ w, x ∉ D ∧ x ≠ 0) (hc : c ∈ D ∨ c = 0)
    (hmem : Holds mem p (δ ++ w ++ [c])) (hfuel : δ.length + w.length < fuel) :
    skipDelimiters mem D fuel p = some (.inr (p + δ.length)) ∧
      skipToken mem D fuel (p + δ.length) = some (p + δ.length + w.length) := by
  rw [List.append_assoc] at hmem
  obtain ⟨hδm, hwm⟩ := holds_append.mp hmem
  obtain ⟨x, w', rfl⟩ := List.exists_cons_of_ne_nil hw
  obtain ⟨n, rfl⟩ : ∃ n, fuel = n + 1 + δ.length := ⟨fuel - δ.length - 1, by omega⟩
  have hx := (holds_cons.mp hwm).1
  have hxD := hwD x List.mem_cons_self
  refine ⟨?_, skipToken_eq hD hc _ hwD hwm (by omega)⟩
  rw [skipDelimiters_append hD (n + 1) hδ hδm]
  exact skipDelimiters_of_token hD (hx ▸ hxD.1) (hx ▸ hxD.2) n

/-- A token ended by the NUL: nothing is written and `*save_ptr` stays on the NUL. -/
lemma strtokR_of_last_token (hD : 0 ∉ D) (hs : s.getD save = p) (hp : p ≠ 0)
    {δ w : List UInt8} (hδ : ∀ x ∈ δ, x ∈ D) (hw : w ≠ []) (hwD : ∀ x ∈ w, x ∉ D ∧ x ≠ 0)
    (hmem : Holds mem p (δ ++ w ++ [0])) (hfuel : δ.length + w.length < fuel) :
    strtokR mem D s save fuel = some (some (p + δ.length), mem, p + δ.length + w.length) := by
  obtain ⟨hbegin, hend⟩ := loops_of_token hD hδ hw hwD (.inr rfl) hmem hfuel
  have hnul : mem (p + δ.length + w.length) = 0 := by
    simpa [Nat.add_assoc] using (holds_cons.mp (holds_append.mp hmem).2).1
  simp [strtokR, hs, hp, hbegin, hend, hnul]

/-- A token ended by the delimiter `d`: the delimiter becomes the token's NUL and `*save_ptr`
moves past it. -/
lemma strtokR_of_token (hD : 0 ∉ D) (hs : s.getD save = p) (hp : p ≠ 0) {δ w : List UInt8}
    (hδ : ∀ x ∈ δ, x ∈ D) (hw : w ≠ []) (hwD : ∀ x ∈ w, x ∉ D ∧ x ≠ 0) {d : UInt8} (hd : d ∈ D)
    (hmem : Holds mem p (δ ++ w ++ [d])) (hfuel : δ.length + w.length < fuel) :
    strtokR mem D s save fuel = some (some (p + δ.length),
      Function.update mem (p + δ.length + w.length) 0, p + δ.length + w.length + 1) := by
  obtain ⟨hbegin, hend⟩ := loops_of_token hD hδ hw hwD (.inl hd) hmem hfuel
  have hdelim : mem (p + δ.length + w.length) ≠ 0 := by
    have hd' : mem (p + δ.length + w.length) = d := by
      simpa [Nat.add_assoc] using (holds_cons.mp (holds_append.mp hmem).2).1
    exact hd' ▸ fun h => hD (h ▸ hd)
  simp [strtokR, hs, hp, hbegin, hend, hdelim]

variable {k : ℕ} {t : ℕ} {mem₁ : ℕ → UInt8} {save₁ : ℕ}

lemma strtokRun_of_null (h : strtokR mem D s save fuel = some (none, mem₁, save₁)) :
    strtokRun D fuel (k + 1) mem s save = some ([], mem₁, save₁) := by
  simp [strtokRun, h]

/-- A call that returns a token goes on from the memory and `*save_ptr` it leaves. -/
lemma strtokRun_of_token (h : strtokR mem D s save fuel = some (some t, mem₁, save₁)) :
    strtokRun D fuel (k + 1) mem s save =
      (strtokRun D fuel k mem₁ none save₁).map fun rest => (t :: rest.1, rest.2) := by
  simp [strtokRun, h, Option.map_eq_bind]

end Calls

section Run

variable {D : List UInt8}

/-- Every token of a run from `p` starts at `p` or after it. -/
lemma le_of_mem_zip {mem : ℕ → UInt8} {p n : ℕ} {ts : List ℕ} {ws : List (List UInt8)}
    (hts : List.Forall₂ (fun t w => ∃ o, t = p + o ∧ o + w.length ≤ n ∧ Holds mem t (w ++ [0]))
      ts ws) {t : ℕ} {w : List UInt8} (hin : (t, w) ∈ ts.zip ws) : p ≤ t := by
  obtain ⟨o, rfl, -⟩ := List.forall₂_zip hts hin
  exact Nat.le_add_right p o

/-- What the calls of `strtok_r` over the string `r` at `p` leave, from `mem` to `mem'`: the
pointers `ts` they return, each at its token of `tokens D r` and ended by a NUL, `*save_ptr` at
the string's end, and every byte they changed a delimiter just after a token, now its NUL. -/
def Tokenised (D r : List UInt8) (p : ℕ) (mem mem' : ℕ → UInt8) (ts : List ℕ) (save' : ℕ) :
    Prop :=
  List.Forall₂ (fun t w => ∃ o, t = p + o ∧ o + w.length ≤ r.length ∧ Holds mem' t (w ++ [0]))
      ts (tokens D r) ∧
    save' = p + r.length ∧
    ∀ c, mem' c ≠ mem c → ∃ t w, (t, w) ∈ ts.zip (tokens D r) ∧ c = t + w.length ∧
      mem c ∈ D ∧ mem' c = 0

/-- A string of delimiters only has no token, and the call that returns NULL writes nothing. -/
lemma Tokenised.delimiters {r : List UInt8} (hδ : ∀ x ∈ r, x ∈ D) (mem : ℕ → UInt8) (p : ℕ) :
    Tokenised D r p mem mem [] (p + r.length) := by
  have htok : tokens D r = [] := by simpa using tokens_of_delimiters hδ []
  exact ⟨htok ▸ .nil, rfl, fun c hc => absurd rfl hc⟩

/-- A last token, ended by the string's NUL, is returned in place and nothing is written. -/
lemma Tokenised.last {δ w : List UInt8} (hδ : ∀ x ∈ δ, x ∈ D) (hw : w ≠ [])
    (hwD : ∀ x ∈ w, x ∉ D) {mem : ℕ → UInt8} {p : ℕ} (hmem : Holds mem p (δ ++ w ++ [0])) :
    Tokenised D (δ ++ w) p mem mem [p + δ.length] (p + δ.length + w.length) := by
  refine ⟨?_, by simp [Nat.add_assoc], fun c hc => absurd rfl hc⟩
  rw [tokens_of_delimiters hδ, tokens_of_token hw hwD]
  refine .cons ⟨δ.length, rfl, by simp, ?_⟩ .nil
  simpa using (holds_append.mp (List.append_assoc δ w [0] ▸ hmem)).2

/-- A token ended by the delimiter `d`, which the first call overwrites with the token's NUL,
then what the later calls leave of the rest `r'`. -/
lemma Tokenised.cons {δ w r' : List UInt8} {d : UInt8} (hδ : ∀ x ∈ δ, x ∈ D) (hw : w ≠ [])
    (hwD : ∀ x ∈ w, x ∉ D) (hd : d ∈ D) {mem mem' : ℕ → UInt8} {p save' : ℕ} {ts : List ℕ}
    (htok : Holds mem p (δ ++ w ++ [d]))
    (hrest : Tokenised D r' (p + δ.length + w.length + 1)
      (Function.update mem (p + δ.length + w.length) 0) mem' ts save') :
    Tokenised D (δ ++ w ++ d :: r') p mem mem' ((p + δ.length) :: ts) save' := by
  obtain ⟨hts, hsave, hframe⟩ := hrest
  have hdm : mem (p + δ.length + w.length) = d := by
    simpa [Nat.add_assoc] using (holds_cons.mp (holds_append.mp htok).2).1
  have htoks : tokens D (δ ++ w ++ d :: r') = w :: tokens D r' := by
    rw [List.append_assoc, tokens_of_delimiters hδ, tokens_token_append_cons hw hwD hd]
  -- the later calls write after the first token's NUL only
  have hkeep : ∀ c, c ≤ p + δ.length + w.length →
      mem' c = Function.update mem (p + δ.length + w.length) 0 c := fun c hc => by
    by_contra hne
    obtain ⟨t, w', hin, rfl, -⟩ := hframe c hne
    have := le_of_mem_zip hts hin
    omega
  rw [Tokenised, htoks]
  refine ⟨?_, ?_, ?_⟩
  · refine .cons ⟨δ.length, rfl, by simp only [List.length_append, List.length_cons]; omega,
      ?_⟩ (hts.imp fun t w' h => ?_)
    · have hfirstTok := (holds_append.mp (List.append_assoc δ w [d] ▸ htok)).2.update_end
        (y := 0)
      exact hfirstTok.congr fun c _ hc => hkeep c (by simp at hc; omega)
    · obtain ⟨o, rfl, hle, hheld⟩ := h
      exact ⟨δ.length + w.length + 1 + o, by omega, by simp; omega, hheld⟩
  · rw [hsave]
    simp
    omega
  · intro c hc
    by_cases hce : mem' c = Function.update mem (p + δ.length + w.length) 0 c
    · -- the NUL the first call wrote over `d`
      obtain rfl : c = p + δ.length + w.length := by
        by_contra hne
        exact hc (hce.trans (Function.update_of_ne hne _ _))
      exact ⟨p + δ.length, w, List.mem_cons_self, rfl, hdm ▸ hd,
        hce.trans (Function.update_self ..)⟩
    · obtain ⟨t, w', hin, rfl, hmD, h0⟩ := hframe _ hce
      have := le_of_mem_zip hts hin
      refine ⟨t, w', List.mem_cons_of_mem _ hin, rfl, ?_, h0⟩
      rwa [Function.update_of_ne (by omega)] at hmD

/-- The calls from `p`, the string `r` there: each call takes the delimiters and the token in
front (`delimiters_token_cases`), and the next call starts where it leaves `*save_ptr`, past the
NUL it wrote after the token. The induction is on the calls left. -/
lemma strtokRun_eq (hD : 0 ∉ D) (fuel : ℕ) :
    ∀ (k : ℕ) {r : List UInt8} {mem : ℕ → UInt8} {s : Option ℕ} {save p : ℕ}, s.getD save = p →
      p ≠ 0 → 0 ∉ r → Holds mem p (r ++ [0]) → r.length < fuel → r.length < k →
      ∃ ts mem' save', strtokRun D fuel k mem s save = some (ts, mem', save') ∧
        Tokenised D r p mem mem' ts save'
  | 0, _, _, _, _, _, _, _, _, _, _, hk => absurd hk (Nat.not_lt_zero _)
  | k + 1, r, mem, s, save, p, hs, hp, hr0, hmem, hfuel, hk => by
    rcases delimiters_token_cases D r with hδ | ⟨δ, w, hw, hδ, hwD, rfl | ⟨d, r', hd, rfl⟩⟩
    · -- delimiters only: NULL at once
      exact ⟨[], mem, p + r.length,
        strtokRun_of_null (strtokR_of_delimiters hD hs hp hδ hmem hfuel),
        Tokenised.delimiters hδ mem p⟩
    · -- a last token, ended by the NUL; the next call returns NULL from the NUL
      have hwD' : ∀ x ∈ w, x ∉ D ∧ x ≠ 0 := fun x hx =>
        ⟨hwD x hx, fun h => hr0 (List.mem_append_right δ (h ▸ hx))⟩
      have hlen : δ.length + w.length < fuel := by simpa using hfuel
      have hwpos := List.length_pos_of_ne_nil hw
      obtain ⟨k, rfl⟩ : ∃ k', k = k' + 1 := ⟨k - 1, by rw [List.length_append] at hk; omega⟩
      have hfirst := strtokR_of_last_token hD hs hp hδ hw hwD' hmem hlen
      have hnul : Holds mem (p + δ.length + w.length) ([] ++ [0]) := by
        simpa [Nat.add_assoc] using (holds_append.mp hmem).2
      have hsecond := strtokR_of_delimiters (s := none) (p := p + δ.length + w.length) hD rfl
        (by omega) (fun _ h => absurd h List.not_mem_nil) hnul
        (Nat.lt_of_le_of_lt (Nat.zero_le _) hfuel)
      refine ⟨[p + δ.length], mem, p + δ.length + w.length, ?_, Tokenised.last hδ hw hwD hmem⟩
      rw [strtokRun_of_token hfirst, strtokRun_of_null hsecond]
      rfl
    · -- a token ended by the delimiter `d`, which becomes its NUL; the calls go on over `r'`
      have hwD' : ∀ x ∈ w, x ∉ D ∧ x ≠ 0 := fun x hx =>
        ⟨hwD x hx, fun h => hr0 (by simp [← h, hx])⟩
      have hr0' : 0 ∉ r' := fun h => hr0 (by simp [h])
      have hlen : δ.length + w.length < fuel := by simp at hfuel; omega
      rw [show δ ++ w ++ d :: r' ++ [0] = δ ++ w ++ [d] ++ (r' ++ [0]) by simp] at hmem
      obtain ⟨htok, hrest⟩ := holds_append.mp hmem
      have hrest : Holds (Function.update mem (p + δ.length + w.length) 0)
          (p + δ.length + w.length + 1) (r' ++ [0]) := by
        refine Holds.congr ?_ fun c hc _ => Function.update_of_ne (by omega) _ _
        simpa [Nat.add_assoc] using hrest
      have hfirst := strtokR_of_token hD hs hp hδ hw hwD' hd htok hlen
      have hk' : r'.length < k := by
        simp only [List.length_append, List.length_cons] at hk
        omega
      obtain ⟨ts, mem', save', hrun, htail⟩ := strtokRun_eq hD fuel k (r := r')
        (s := none) (p := p + δ.length + w.length + 1) rfl (Nat.succ_ne_zero _) hr0' hrest
        (by simp at hfuel; omega) hk'
      refine ⟨(p + δ.length) :: ts, mem', save', ?_, Tokenised.cons hδ hw hwD hd htok htail⟩
      rw [strtokRun_of_token hfirst, hrun]
      rfl

end Run

/-- **`strtok_r` tokenises**: for a string `str` at `a` (its bytes, then its NUL) and delimiters
`D` (a string, so no NUL in it), the first call on `a` and the calls with a null `s` after it
return, in order, the maximal non-empty pieces of `str` holding no delimiter, each in its place
in the string and NUL-terminated there; then a call returns NULL and leaves the memory and
`*save_ptr` as they are, so every later call returns NULL too; and a byte has changed only where
it was the delimiter just after a returned token, now that token's NUL. -/
theorem strtok_r_tokenises {D str : List UInt8} (hD : 0 ∉ D) (hstr : 0 ∉ str)
    {mem : ℕ → UInt8} {a : ℕ} (ha : a ≠ 0) (hmem : Holds mem a (str ++ [0])) (save : ℕ)
    {fuel : ℕ} (hfuel : str.length < fuel) :
    ∃ ts mem' save', strtokRun D fuel fuel mem (some a) save = some (ts, mem', save') ∧
      List.Forall₂ (fun t w => ∃ o, t = a + o ∧ o + w.length ≤ str.length ∧
        Holds mem' t (w ++ [0])) ts (tokens D str) ∧
      strtokR mem' D none save' fuel = some (none, mem', save') ∧
      ∀ c, mem' c ≠ mem c → ∃ t w, (t, w) ∈ ts.zip (tokens D str) ∧ c = t + w.length ∧
        mem c ∈ D ∧ mem' c = 0 := by
  obtain ⟨ts, mem', save', hrun, hts, hsave, hframe⟩ :=
    strtokRun_eq hD fuel fuel (s := some a) (p := a) rfl ha hstr hmem hfuel hfuel
  refine ⟨ts, mem', save', hrun, hts, ?_, hframe⟩
  -- `*save_ptr` is left on the string's NUL, which no call overwrote
  have hnul : mem' save' = 0 := by
    by_cases hsame : mem' save' = mem save'
    · rw [hsame, hsave]
      exact (holds_cons.mp (holds_append.mp hmem).2).1
    · exact (hframe save' hsame).choose_spec.choose_spec.2.2.2
  have hnul' : Holds mem' save' ([] ++ [0]) := holds_cons.mpr ⟨hnul, holds_nil⟩
  simpa using strtokR_of_delimiters (s := none) (p := save') hD rfl (by omega)
    (fun _ h => absurd h List.not_mem_nil) hnul' (Nat.lt_of_le_of_lt (Nat.zero_le _) hfuel)

/-- The string `"a b"` at `1`, its NUL at `4`. -/
def twoWords : ℕ → UInt8 := fun k => [0, 97, 32, 98].getD k 0

theorem strtok_r_tokenises_two_words :
    ∃ ts mem' save', strtokRun [32] 4 4 twoWords (some 1) 0 = some (ts, mem', save') ∧
      List.Forall₂ (fun t w => ∃ o, t = 1 + o ∧ o + w.length ≤ [97, 32, 98].length ∧
        Holds mem' t (w ++ [0])) ts (tokens [32] [97, 32, 98]) ∧
      strtokR mem' [32] none save' 4 = some (none, mem', save') ∧
      ∀ c, mem' c ≠ twoWords c → ∃ t w, (t, w) ∈ ts.zip (tokens [32] [97, 32, 98]) ∧
        c = t + w.length ∧ twoWords c ∈ [32] ∧ mem' c = 0 :=
  @strtok_r_tokenises [32] [97, 32, 98] (by decide) (by decide) twoWords 1 (by decide)
    (by unfold Holds; decide) 0 4 (by decide)

end Libc

end TinyOs
