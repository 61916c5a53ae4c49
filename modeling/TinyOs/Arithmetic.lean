import Mathlib.Data.BitVec
import Mathlib.Algebra.Order.Group.Nat
import Mathlib.Tactic.Ring
import Mathlib.Tactic.Positivity

/-!
The 64-bit division routines of `lib/arithmetic.c`, which GCC calls for `/` and `%` on 64-bit
operands on the 80x86. `udiv64` divides with the `divl` instruction, in one of two ways after
the size of the divisor; `umod64`, `sdiv64` and `smod64` are built on it, and `__udivdi3`,
`__umoddi3`, `__divdi3` and `__moddi3` call them. `uint64_t`, `int64_t`, `uint32_t` and
`int32_t` are `BitVec 64` and `BitVec 32`, and `divl`'s divide error is `none`.

* `nlz_bounds`: `nlz` shifts the top set bit of a nonzero word to bit 31;
* `estimate_bounds`: the estimate of the second branch, `divl` of half the dividend by the top
  32 bits of the normalised divisor, is the quotient or one more; `correct_estimate` picks the
  quotient;
* `udiv64_eq`, `sdiv64_eq`: `udiv64` is `/` and `sdiv64` is `BitVec.sdiv`, with no divide
  error, for every nonzero divisor;
* `udivdi3_divdi3_eq`: the floor and the truncated quotient;
* `moddi3_truncates`: `umod64` and `smod64` return 32-bit values, so `__umoddi3` and `__moddi3`
  return the remainder cut to its low 32 bits.
-/

namespace TinyOs

/-- The 80x86 `divl` instruction: `EDX:EAX` divided by a 32-bit divisor, the quotient in `EAX`;
`none` for the divide error (`#DE`) it raises when the divisor is zero or the quotient does not
fit in 32 bits. -/
def divlInsn (hi lo d : BitVec 32) : Option (BitVec 32) :=
  if d = 0 ∨ 2^32 ≤ (hi ++ lo).toNat / d.toNat then none
  else some (BitVec.ofNat 32 ((hi ++ lo).toNat / d.toNat))

/-- `divl (n, d)`. -/
def divl (n : BitVec 64) (d : BitVec 32) : Option (BitVec 32) :=
  let n1 : BitVec 32 := (n >>> 32).setWidth 32
  let n0 : BitVec 32 := n.setWidth 32
  divlInsn n1 n0 d

/-- One test of `nlz`: when `x` is at most `limit`, `bits` more leading zeros are counted and
shifted out. -/
def nlzStep (bits : ℕ) (limit : BitVec 32) (p : ℕ × BitVec 32) : ℕ × BitVec 32 :=
  if p.2 ≤ limit then (p.1 + bits, p.2 <<< bits) else p

/-- `nlz (x)`. -/
def nlz (x : BitVec 32) : ℕ :=
  let p := nlzStep 16 0x0000FFFF (0, x)
  let p := nlzStep 8 0x00FFFFFF p
  let p := nlzStep 4 0x0FFFFFFF p
  let p := nlzStep 2 0x3FFFFFFF p
  if p.2 ≤ 0x7FFFFFFF then p.1 + 1 else p.1

/-- `udiv64 (n, d)`; `none` when a `divl` traps. -/
def udiv64 (n d : BitVec 64) : Option (BitVec 64) :=
  if d >>> 32 = 0 then
    let b : BitVec 64 := 1 <<< 32
    let n1 : BitVec 32 := (n >>> 32).setWidth 32
    let n0 : BitVec 32 := n.setWidth 32
    let d0 : BitVec 32 := d.setWidth 32
    (divl (b * (n1 % d0).setWidth 64 + n0.setWidth 64) d0).map fun q =>
      q.setWidth 64 + b * (n1 / d0).setWidth 64
  else if n < d then some 0
  else
    let d1 : BitVec 32 := (d >>> 32).setWidth 32
    let s := nlz d1
    (divl (n >>> 1) (((d <<< s) >>> 32).setWidth 32)).map fun q₁ =>
      let q : BitVec 64 := (q₁.ushiftRight (31 - s)).setWidth 64
      if n - (q - 1) * d < d then q - 1 else q

/-- `umod64 (n, d)`, whose return type is `uint32_t`. -/
def umod64 (n d : BitVec 64) : Option (BitVec 32) :=
  (udiv64 n d).map fun q => (n - d * q).setWidth 32

/-- `sdiv64 (n, d)`. -/
def sdiv64 (n d : BitVec 64) : Option (BitVec 64) :=
  let nAbs := if (0#64).sle n then n else -n
  let dAbs := if (0#64).sle d then d else -d
  (udiv64 nAbs dAbs).map fun qAbs => if n.slt 0#64 == d.slt 0#64 then qAbs else -qAbs

/-- `smod64 (n, d)`, whose return type is `int32_t`. -/
def smod64 (n d : BitVec 64) : Option (BitVec 32) :=
  (sdiv64 n d).map fun q => (n - d * q).setWidth 32

/-- `__udivdi3`. -/
def udivdi3 (n d : BitVec 64) : Option (BitVec 64) := udiv64 n d

/-- `__umoddi3`: the `uint32_t` of `umod64` widened to `unsigned long long`. -/
def umoddi3 (n d : BitVec 64) : Option (BitVec 64) := (umod64 n d).map (·.setWidth 64)

/-- `__divdi3`. -/
def divdi3 (n d : BitVec 64) : Option (BitVec 64) := sdiv64 n d

/-- `__moddi3`: the `int32_t` of `smod64` widened to `long long`. -/
def moddi3 (n d : BitVec 64) : Option (BitVec 64) := (smod64 n d).map (·.signExtend 64)

/-! ### The arithmetic of the two branches -/


/-- `divl`'s numerator in the first branch of `udiv64` gives the quotient with the high
quotient added back. -/
lemma div_eq_of_halves {n d : ℕ} (hd : 0 < d) :
    n / d = (2^32 * (n / 2^32 % d) + n % 2^32) / d + 2^32 * (n / 2^32 / d) := by
  have hn : n = 2^32 * (n / 2^32 % d) + n % 2^32 + d * (2^32 * (n / 2^32 / d)) := by
    calc n = 2^32 * (n / 2^32) + n % 2^32 := (Nat.div_add_mod n _).symm
      _ = 2^32 * (d * (n / 2^32 / d) + n / 2^32 % d) + n % 2^32 := by
        rw [Nat.div_add_mod (n / 2^32) d]
      _ = _ := by ring
  conv_lhs => rw [hn]
  rw [Nat.add_mul_div_left _ _ hd]

/-- The numerator of the low step is below `2^32 * d`, so its quotient fits in 32 bits. -/
lemma halves_lt {n d : ℕ} (hd : 0 < d) : 2^32 * (n / 2^32 % d) + n % 2^32 < 2^32 * d := by
  have h₁ : n / 2^32 % d + 1 ≤ d := Nat.mod_lt _ hd
  have h₂ : n % 2^32 < 2^32 := Nat.mod_lt _ (by norm_num)
  calc 2^32 * (n / 2^32 % d) + n % 2^32 < 2^32 * (n / 2^32 % d) + 2^32 := by omega
    _ = 2^32 * (n / 2^32 % d + 1) := by ring
    _ ≤ 2^32 * d := Nat.mul_le_mul_left _ h₁

/-- Shifting a divisor of `2^32` or more left by the leading zeros of its high half puts its
top bit at bit 63 without losing a bit. -/
lemma normalised_bounds {d s : ℕ} (hs : s ≤ 31) (h₁ : 2^31 ≤ d / 2^32 * 2^s)
    (h₂ : d / 2^32 * 2^s < 2^32) : 2^63 ≤ d * 2^s ∧ d * 2^s < 2^64 := by
  have hpow : (2:ℕ)^32 = 2^(32 - s) * 2^s := by rw [← pow_add]; congr 1; omega
  constructor
  · calc 2^63 = 2^31 * 2^32 := by norm_num
      _ ≤ d / 2^32 * 2^s * 2^32 := Nat.mul_le_mul_right _ h₁
      _ = d / 2^32 * 2^32 * 2^s := by ring
      _ ≤ d * 2^s := Nat.mul_le_mul_right _ (Nat.div_mul_le_self _ _)
  · have hq : d / 2^32 + 1 ≤ 2^(32 - s) := Nat.lt_of_mul_lt_mul_right (h₂.trans_eq hpow)
    calc d * 2^s < 2^32 * (d / 2^32 + 1) * 2^s :=
          Nat.mul_lt_mul_of_pos_right (Nat.lt_mul_div_succ d (by norm_num)) (by positivity)
      _ ≤ 2^32 * 2^(32 - s) * 2^s := Nat.mul_le_mul_right _ (Nat.mul_le_mul_left _ hq)
      _ = 2^64 := by rw [Nat.mul_assoc, ← hpow]; norm_num

/-- The correction of `udiv64`'s second branch. -/
lemma correct_estimate {n d q : ℕ} (hd : 0 < d) (hdn : d ≤ n) (hlo : n / d ≤ q)
    (hhi : q ≤ n / d + 1) : (if n - (q - 1) * d < d then q - 1 else q) = n / d := by
  have hQ : 1 ≤ n / d := (Nat.one_le_div_iff hd).mpr hdn
  have hn := Nat.div_add_mod n d
  have hr := Nat.mod_lt n hd
  rcases (show q = n / d ∨ q = n / d + 1 by omega) with rfl | rfl
  · -- the estimate is right: one quotient less leaves a full `d` over
    have h : (n / d - 1) * d = d * (n / d) - d := by
      rw [Nat.sub_one_mul, Nat.mul_comm]
    rw [if_neg (by rw [h]; have := Nat.le_mul_of_pos_right d hQ; omega)]
  · rw [Nat.add_sub_cancel, if_pos (by rw [Nat.mul_comm]; omega)]



/-- A quotient by at least `m` of a dividend below `c * m` is below `c`. -/
lemma div_lt_of_lt_mul_of_le {n d m c : ℕ} (hn : n < c * m) (hd : m ≤ d) : n / d < c := by
  have hm : 0 < m := Nat.pos_of_ne_zero (by rintro rfl; simp at hn)
  calc n / d ≤ n / m := Nat.div_le_div_left hd hm
    _ < c := Nat.div_lt_of_lt_mul (by rwa [Nat.mul_comm])

lemma estimate_bounds {n d s : ℕ} (hn : n < 2^64) (hs : s ≤ 31) (hd : 2^32 ≤ d)
    (hlo : 2^63 ≤ d * 2^s) :
    n / d ≤ n / 2 / (d * 2^s / 2^32) / 2^(31 - s) ∧
      n / 2 / (d * 2^s / 2^32) / 2^(31 - s) ≤ n / d + 1 := by
  -- the top 32 bits of `d * 2^s` are `d` with its low `32 - s` bits dropped
  have hpow : (2:ℕ)^32 = 2^(32 - s) * 2^s := by rw [← pow_add]; congr 1; omega
  have hv : d * 2^s / 2^32 = d / 2^(32 - s) := by
    rw [hpow, Nat.mul_div_mul_right _ _ (by positivity)]
  have hv₁ : 2^31 ≤ d * 2^s / 2^32 :=
    (Nat.le_div_iff_mul_le (by positivity)).mpr (le_of_eq_of_le (by norm_num) hlo)
  rw [hv] at hv₁ ⊢
  set v := d / 2^(32 - s)
  set r := d % 2^(32 - s)
  -- shifting the quotient of `n / 2` back by `31 - s` divides `n` by `v * 2^(32 - s)`
  have hq : n / 2 / v / 2^(31 - s) = n / (v * 2^(32 - s)) := by
    rw [Nat.div_div_eq_div_mul, Nat.div_div_eq_div_mul, show 32 - s = (31 - s) + 1 by omega,
      pow_succ]
    ring_nf
  rw [hq]
  have hD : v * 2^(32 - s) + r = d := Nat.div_add_mod' d _
  have hDpos : 0 < v * 2^(32 - s) := by positivity
  have hr : r < 2^(32 - s) := Nat.mod_lt _ (by positivity)
  -- the dropped bits times one more than the quotient stay below the truncated divisor
  have hkey : (n / d + 1) * r ≤ v * 2^(32 - s) := by
    rcases (show s = 31 ∨ s ≤ 30 by omega) with rfl | hs'
    · have hQ : n / d < 2^32 := div_lt_of_lt_mul_of_le (by norm_num; omega) hd
      have hr₁ : r ≤ 1 := by norm_num at hr; omega
      calc (n / d + 1) * r ≤ (n / d + 1) * 1 := Nat.mul_le_mul_left _ hr₁
        _ ≤ 2^31 * 2^(32 - 31) := by norm_num; omega
        _ ≤ v * 2^(32 - 31) := Nat.mul_le_mul_right _ hv₁
    · have h₄ : 2^2 ≤ 2^(32 - s) := Nat.pow_le_pow_right (by norm_num) (by omega)
      have hd₃₃ : 2^31 * 2^2 ≤ d :=
        calc 2^31 * 2^2 ≤ v * 2^(32 - s) := Nat.mul_le_mul hv₁ h₄
          _ ≤ d := by omega
      have hQ : n / d < 2^31 := div_lt_of_lt_mul_of_le (by norm_num; omega) hd₃₃
      calc (n / d + 1) * r ≤ 2^31 * 2^(32 - s) := Nat.mul_le_mul (by omega) hr.le
        _ ≤ v * 2^(32 - s) := Nat.mul_le_mul_right _ hv₁
  refine ⟨Nat.div_le_div_left (by omega) hDpos, ?_⟩
  rw [← Nat.lt_add_one_iff, Nat.div_lt_iff_lt_mul hDpos]
  calc n < (n / d + 1) * d := by rw [Nat.mul_comm]; exact Nat.lt_mul_div_succ n (by omega)
    _ = (n / d + 1) * (v * 2^(32 - s)) + (n / d + 1) * r := by rw [← Nat.mul_add, hD]
    _ ≤ (n / d + 1) * (v * 2^(32 - s)) + v * 2^(32 - s) := Nat.add_le_add_left hkey _
    _ = (n / d + 1 + 1) * (v * 2^(32 - s)) := by ring


/-! ### `divl` and `nlz` -/

/-- `divl` puts the two halves of `n` back together in `EDX:EAX`. -/
lemma halves_append (n : BitVec 64) : ((n >>> 32).setWidth 32 ++ n.setWidth 32).toNat = n.toNat := by
  have hlo : n.toNat % 2^32 < 2^32 := Nat.mod_lt _ (by norm_num)
  have hhi : n.toNat / 2^32 < 2^32 := Nat.div_lt_of_lt_mul (by have := n.isLt; norm_num at this ⊢; omega)
  rw [BitVec.toNat_append, ← Nat.shiftLeft_add_eq_or_of_lt (by simpa using hlo)]
  simp only [BitVec.toNat_setWidth, BitVec.toNat_ushiftRight, Nat.shiftRight_eq_div_pow,
    Nat.shiftLeft_eq, Nat.mod_eq_of_lt hhi]
  rw [Nat.mul_comm]; exact Nat.div_add_mod _ _

lemma divl_eq {n : BitVec 64} {d : BitVec 32} (hd : d ≠ 0) (hq : n.toNat / d.toNat < 2^32) :
    divl n d = some (BitVec.ofNat 32 (n.toNat / d.toNat)) := by
  unfold divl divlInsn
  dsimp only
  rw [halves_append, if_neg (not_or.mpr ⟨hd, by omega⟩)]

/-- One test of `nlz` keeps `x` as the original word shifted left by the count, with no bit
lost, and raises the lower bound from `2^(32 - 2 * bits)` to `2^(32 - bits)`. -/
lemma nlzStep_spec (bits : ℕ) (limit : BitVec 32) (hb : bits ≤ 16)
    (hlimit : limit.toNat = 2^(32 - bits) - 1) {x : ℕ} {p : ℕ × BitVec 32} (hp : p.2.toNat = x * 2^p.1)
    (hlo : 2^(32 - 2 * bits) ≤ p.2.toNat) :
    (nlzStep bits limit p).2.toNat = x * 2^(nlzStep bits limit p).1 ∧
      2^(32 - bits) ≤ (nlzStep bits limit p).2.toNat := by
  unfold nlzStep
  split_ifs with h
  · rw [BitVec.le_def, hlimit] at h
    have hpos : 0 < 2^(32 - bits) := by positivity
    have hlt : p.2.toNat * 2^bits < 2^32 :=
      calc p.2.toNat * 2^bits < 2^(32 - bits) * 2^bits :=
            Nat.mul_lt_mul_of_pos_right (by omega) (by positivity)
        _ ≤ 2^32 := by rw [← pow_add]; exact Nat.pow_le_pow_right (by norm_num) (by omega)
    simp only [BitVec.toNat_shiftLeft, Nat.shiftLeft_eq, Nat.mod_eq_of_lt hlt]
    refine ⟨by rw [hp, pow_add, Nat.mul_assoc], ?_⟩
    calc 2^(32 - bits) ≤ 2^(32 - 2 * bits) * 2^bits := by
          rw [← pow_add]; exact Nat.pow_le_pow_right (by norm_num) (by omega)
      _ ≤ p.2.toNat * 2^bits := Nat.mul_le_mul_right _ hlo
  · rw [BitVec.le_def, hlimit] at h
    exact ⟨hp, by omega⟩

/-- `nlz` shifts the top set bit of a nonzero word to bit 31. -/
theorem nlz_bounds {x : BitVec 32} (hx : x ≠ 0) :
    2^31 ≤ x.toNat * 2^(nlz x) ∧ x.toNat * 2^(nlz x) < 2^32 := by
  have hx₀ : 2^(32 - 2 * 16) ≤ x.toNat := by
    have : x.toNat ≠ 0 := fun h => hx (BitVec.eq_of_toNat_eq h)
    norm_num; omega
  -- four tests, each doubling the number of leading bits known to be set
  obtain ⟨h₁, hlo₁⟩ := nlzStep_spec 16 0x0000FFFF (by omega) (by decide) (x := x.toNat)
    (p := (0, x)) (by simp) hx₀
  obtain ⟨h₂, hlo₂⟩ := nlzStep_spec 8 0x00FFFFFF (by omega) (by decide) h₁ hlo₁
  obtain ⟨h₃, hlo₃⟩ := nlzStep_spec 4 0x0FFFFFFF (by omega) (by decide) h₂ hlo₂
  obtain ⟨h₄, hlo₄⟩ := nlzStep_spec 2 0x3FFFFFFF (by omega) (by decide) h₃ hlo₃
  unfold nlz
  dsimp only
  set p := nlzStep 2 0x3FFFFFFF (nlzStep 4 0x0FFFFFFF (nlzStep 8 0x00FFFFFF
    (nlzStep 16 0x0000FFFF (0, x))))
  have hp : p.2.toNat < 2^32 := p.2.isLt
  have hlimit : (0x7FFFFFFF : BitVec 32).toNat = 2^31 - 1 := rfl
  split_ifs with h
  · -- the last test counts one more zero without shifting
    rw [BitVec.le_def, hlimit] at h
    rw [show x.toNat * 2^(p.1 + 1) = 2 * p.2.toNat by rw [h₄, pow_succ]; ring]
    norm_num at h hlo₄ ⊢
    omega
  · rw [BitVec.le_def, hlimit] at h
    rw [← h₄]
    norm_num at h ⊢
    omega

/-! ### `udiv64` -/

/-- The correction of the second branch, in 64-bit arithmetic: with `q` at least one, neither
`(q - 1) * d` nor the subtraction wraps. -/
lemma correct_estimate_bv {n d q : BitVec 64} (hd : 0 < d.toNat) (hdn : d.toNat ≤ n.toNat)
    (hlo : n.toNat / d.toNat ≤ q.toNat) (hhi : q.toNat ≤ n.toNat / d.toNat + 1) :
    (if n - (q - 1) * d < d then q - 1 else q) = n / d := by
  have hq : 1 ≤ q.toNat := le_trans ((Nat.one_le_div_iff hd).mpr hdn) hlo
  have hq₁ : (q - 1).toNat = q.toNat - 1 := by
    rw [BitVec.toNat_sub_of_le (by rw [BitVec.le_def]; simpa using hq)]
    simp
  have hmul : (q.toNat - 1) * d.toNat ≤ n.toNat :=
    (Nat.mul_le_mul_right _ (by omega : q.toNat - 1 ≤ n.toNat / d.toNat)).trans
      (Nat.div_mul_le_self _ _)
  have hm : ((q - 1) * d).toNat = (q.toNat - 1) * d.toNat := by
    rw [BitVec.toNat_mul, hq₁, Nat.mod_eq_of_lt (lt_of_le_of_lt hmul n.isLt)]
  have hsub : (n - (q - 1) * d).toNat = n.toNat - (q.toNat - 1) * d.toNat := by
    rw [BitVec.toNat_sub_of_le (by rw [BitVec.le_def, hm]; exact hmul), hm]
  apply BitVec.eq_of_toNat_eq
  rw [BitVec.toNat_udiv, ← correct_estimate hd hdn hlo hhi]
  by_cases h : n.toNat - (q.toNat - 1) * d.toNat < d.toNat
  · rw [if_pos h, if_pos (by rw [BitVec.lt_def, hsub]; exact h), hq₁]
  · rw [if_neg h, if_neg (by rw [BitVec.lt_def, hsub]; exact h)]

/-- A divisor below `2^32`: the high half of `n` is divided first and the remainder carried
into the low half, and neither division traps. -/
lemma udiv64_of_small {n d : BitVec 64} (hd : d ≠ 0) (hsmall : d >>> 32 = 0) :
    udiv64 n d = some (n / d) := by
  have hd32 : d.toNat < 2^32 := by
    have := congrArg BitVec.toNat hsmall
    simp only [BitVec.toNat_ushiftRight, Nat.shiftRight_eq_div_pow] at this
    exact (Nat.div_eq_zero_iff_lt (by norm_num)).mp this
  have hdpos : 0 < d.toNat := Nat.pos_of_ne_zero fun h => hd (BitVec.eq_of_toNat_eq h)
  have hn : n.toNat < 2^32 * 2^32 := n.isLt
  have hn₁ : n.toNat / 2^32 < 2^32 := Nat.div_lt_of_lt_mul hn
  have hd₀ : (d.setWidth 32).toNat = d.toNat := by
    rw [BitVec.toNat_setWidth, Nat.mod_eq_of_lt hd32]
  have hhi : ((n >>> 32).setWidth 32).toNat = n.toNat / 2^32 := by
    rw [BitVec.toNat_setWidth, BitVec.toNat_ushiftRight, Nat.shiftRight_eq_div_pow,
      Nat.mod_eq_of_lt hn₁]
  have hlo : (n.setWidth 32).toNat = n.toNat % 2^32 := BitVec.toNat_setWidth _ _
  have hb : (1 <<< 32 : BitVec 64).toNat = 2^32 := rfl
  -- the numerator of the low step is below `2^32 * d`, so no 64-bit operation wraps
  have hA := halves_lt (n := n.toNat) hdpos
  have hA₆₄ : 2^32 * (n.toNat / 2^32 % d.toNat) + n.toNat % 2^32 < 2^64 :=
    calc _ < 2^32 * d.toNat := hA
      _ ≤ 2^32 * 2^32 := Nat.mul_le_mul_left _ hd32.le
      _ = 2^64 := by norm_num
  have hrem : (((n >>> 32).setWidth 32 % d.setWidth 32).setWidth 64).toNat =
      n.toNat / 2^32 % d.toNat := by
    rw [BitVec.toNat_setWidth, BitVec.toNat_umod, hhi, hd₀,
      Nat.mod_eq_of_lt ((Nat.mod_lt _ hdpos).trans (by omega))]
  have hlow : ((n.setWidth 32).setWidth 64).toNat = n.toNat % 2^32 := by
    rw [BitVec.toNat_setWidth, hlo, Nat.mod_eq_of_lt ((Nat.mod_lt _ (by norm_num)).trans
      (by omega))]
  have harg : ((1 <<< 32 : BitVec 64) * ((n >>> 32).setWidth 32 % d.setWidth 32).setWidth 64 +
      (n.setWidth 32).setWidth 64).toNat = 2^32 * (n.toNat / 2^32 % d.toNat) + n.toNat % 2^32 := by
    rw [BitVec.toNat_add, BitVec.toNat_mul, hb, hrem, hlow,
      Nat.mod_eq_of_lt (show 2^32 * (n.toNat / 2^32 % d.toNat) < 2^64 by omega),
      Nat.mod_eq_of_lt hA₆₄]
  have hd₀' : d.setWidth 32 ≠ 0 := fun h => by
    have := congrArg BitVec.toNat h
    rw [hd₀] at this
    exact hdpos.ne' this
  unfold udiv64
  rw [if_pos hsmall]
  dsimp only
  rw [divl_eq hd₀' (by rw [harg, hd₀]; exact (Nat.div_lt_iff_lt_mul hdpos).mpr hA),
    Option.map_some, harg, hd₀]
  congr 1
  -- the two quotients add up to `n / d`, which fits in 64 bits
  have hq₀ : ((BitVec.ofNat 32 ((2^32 * (n.toNat / 2^32 % d.toNat) + n.toNat % 2^32) /
      d.toNat)).setWidth 64).toNat = (2^32 * (n.toNat / 2^32 % d.toNat) + n.toNat % 2^32) /
      d.toNat := by
    have := (Nat.div_lt_iff_lt_mul hdpos).mpr hA
    rw [BitVec.toNat_setWidth, BitVec.toNat_ofNat, Nat.mod_eq_of_lt this,
      Nat.mod_eq_of_lt (this.trans (by omega))]
  have hq₁ : (((n >>> 32).setWidth 32 / d.setWidth 32).setWidth 64).toNat =
      n.toNat / 2^32 / d.toNat := by
    rw [BitVec.toNat_setWidth, BitVec.toNat_udiv, hhi, hd₀,
      Nat.mod_eq_of_lt ((Nat.div_le_self _ _).trans_lt (hn₁.trans (by omega)))]
  have hsum := div_eq_of_halves (n := n.toNat) hdpos
  have hlt : n.toNat / d.toNat < 2^64 := (Nat.div_le_self _ _).trans_lt n.isLt
  apply BitVec.eq_of_toNat_eq
  rw [BitVec.toNat_add, BitVec.toNat_mul, hb, hq₀, hq₁, BitVec.toNat_udiv,
    Nat.mod_eq_of_lt (show 2^32 * (n.toNat / 2^32 / d.toNat) < 2^64 by omega), ← hsum,
    Nat.mod_eq_of_lt hlt]

/-- A divisor of `2^32` or more, at most the dividend: the divisor is normalised so that its
top bit is bit 63, `divl` divides half the dividend by its top 32 bits without trapping, and
one comparison corrects the estimate. -/
lemma udiv64_of_large {n d : BitVec 64} (hlarge : d >>> 32 ≠ 0) (hdn : ¬ n < d) :
    udiv64 n d = some (n / d) := by
  have hdn' : d.toNat ≤ n.toNat := by rw [BitVec.lt_def] at hdn; omega
  have hd : d.toNat < 2^32 * 2^32 := d.isLt
  have hd₁ : ((d >>> 32).setWidth 32).toNat = d.toNat / 2^32 := by
    rw [BitVec.toNat_setWidth, BitVec.toNat_ushiftRight, Nat.shiftRight_eq_div_pow,
      Nat.mod_eq_of_lt (Nat.div_lt_of_lt_mul hd)]
  have hd32 : 2^32 ≤ d.toNat := by
    by_contra h
    apply hlarge
    apply BitVec.eq_of_toNat_eq
    rw [BitVec.toNat_ushiftRight, Nat.shiftRight_eq_div_pow, Nat.div_eq_of_lt (by omega)]
    rfl
  have hne : (d >>> 32).setWidth 32 ≠ 0 := fun h => by
    have h₀ : d.toNat / 2^32 = 0 := by rw [← hd₁, h]; rfl
    have : 1 ≤ d.toNat / 2^32 := (Nat.one_le_div_iff (by norm_num)).mpr hd32
    omega
  obtain ⟨hs₁, hs₂⟩ := nlz_bounds hne
  rw [hd₁] at hs₁ hs₂
  have hs : nlz ((d >>> 32).setWidth 32) ≤ 31 := by
    have h : 2^nlz ((d >>> 32).setWidth 32) < 2^32 :=
      lt_of_le_of_lt (Nat.le_mul_of_pos_left _ ((Nat.one_le_div_iff (by norm_num)).mpr hd32))
        hs₂
    exact Nat.lt_succ_iff.mp ((Nat.pow_lt_pow_iff_right (by norm_num)).mp h)
  obtain ⟨hlo, hhi⟩ := normalised_bounds hs hs₁ hs₂
  set s := nlz ((d >>> 32).setWidth 32)
  -- the top 32 bits of the normalised divisor, and the quotient `divl` returns
  have hv : (((d <<< s) >>> 32).setWidth 32).toNat = d.toNat * 2^s / 2^32 := by
    rw [BitVec.toNat_setWidth, BitVec.toNat_ushiftRight, BitVec.toNat_shiftLeft,
      Nat.shiftLeft_eq, Nat.mod_eq_of_lt hhi, Nat.shiftRight_eq_div_pow,
      Nat.mod_eq_of_lt (Nat.div_lt_of_lt_mul (by omega))]
  have hv₁ : 2^31 ≤ d.toNat * 2^s / 2^32 :=
    (Nat.le_div_iff_mul_le (by norm_num)).mpr (le_of_eq_of_le (by norm_num) hlo)
  have hvne : ((d <<< s) >>> 32).setWidth 32 ≠ 0 := fun h => by
    have h₀ : d.toNat * 2^s / 2^32 = 0 := by rw [← hv, h]; rfl
    omega
  have hn₁ : (n >>> 1).toNat = n.toNat / 2 := by
    rw [BitVec.toNat_ushiftRight, Nat.shiftRight_eq_div_pow, pow_one]
  have hq₁ : n.toNat / 2 / (d.toNat * 2^s / 2^32) < 2^32 := by
    have hn : n.toNat < 2^64 := n.isLt
    exact Nat.div_lt_of_lt_mul (calc n.toNat / 2 < 2^31 * 2^32 := by omega
      _ ≤ (d.toNat * 2^s / 2^32) * 2^32 := Nat.mul_le_mul_right _ hv₁)
  unfold udiv64
  rw [if_neg hlarge, if_neg hdn]
  dsimp only
  rw [divl_eq hvne (by rw [hn₁, hv]; exact hq₁), Option.map_some, hn₁, hv]
  -- the shifted quotient is `n / d` or one more
  have hq : (((BitVec.ofNat 32 (n.toNat / 2 / (d.toNat * 2^s / 2^32))).ushiftRight
      (31 - s)).setWidth 64).toNat = n.toNat / 2 / (d.toNat * 2^s / 2^32) / 2^(31 - s) := by
    have hlt : n.toNat / 2 / (d.toNat * 2^s / 2^32) / 2^(31 - s) < 2^64 :=
      (Nat.div_le_self _ _).trans_lt (hq₁.trans (by omega))
    rw [BitVec.toNat_setWidth, BitVec.ushiftRight_eq, BitVec.toNat_ushiftRight,
      BitVec.toNat_ofNat, Nat.mod_eq_of_lt hq₁, Nat.shiftRight_eq_div_pow, Nat.mod_eq_of_lt hlt]
  obtain ⟨hlo', hhi'⟩ := estimate_bounds n.isLt hs hd32 hlo
  rw [← hq] at hlo' hhi'
  exact congrArg some (correct_estimate_bv (by omega) hdn' hlo' hhi')

/-- `udiv64` divides, and no `divl` traps, for every nonzero divisor. -/
theorem udiv64_eq (n : BitVec 64) {d : BitVec 64} (hd : d ≠ 0) : udiv64 n d = some (n / d) := by
  by_cases hsmall : d >>> 32 = 0
  · exact udiv64_of_small hd hsmall
  · by_cases hdn : n < d
    · unfold udiv64
      rw [if_neg hsmall, if_pos hdn]
      congr 1
      apply BitVec.eq_of_toNat_eq
      rw [BitVec.toNat_udiv, Nat.div_eq_of_lt (BitVec.lt_def.mp hdn)]
      rfl
    · exact udiv64_of_large hsmall hdn

/-! ### Remainders and signed division -/

section Signed

variable {w : ℕ}

/-- `n - d * (n / d)` is the remainder, in any width. -/
lemma sub_mul_udiv (x y : BitVec w) : x - y * (x / y) = x % y := by
  have h : y.toNat * (x.toNat / y.toNat) ≤ x.toNat := Nat.mul_div_le _ _
  have hm : (y * (x / y)).toNat = y.toNat * (x.toNat / y.toNat) := by
    rw [BitVec.toNat_mul, BitVec.toNat_udiv, Nat.mod_eq_of_lt (lt_of_le_of_lt h x.isLt)]
  apply BitVec.eq_of_toNat_eq
  rw [BitVec.toNat_sub_of_le (by rw [BitVec.le_def, hm]; exact h), hm, BitVec.toNat_umod,
    Nat.mod_eq_sub_mul_div]

/-- `n - d * sdiv (n, d)` is the remainder of the truncating division. -/
lemma sub_mul_sdiv (x y : BitVec w) : x - y * x.sdiv y = x.srem y := by
  rw [BitVec.sdiv_eq, BitVec.srem_eq]
  -- each sign case is the unsigned identity on the absolute values
  cases x.msb <;> cases y.msb <;> dsimp only
  · rw [BitVec.udiv_eq, sub_mul_udiv]
  · rw [BitVec.udiv_eq, ← sub_mul_udiv x (-y)]; ring
  · rw [BitVec.udiv_eq, ← sub_mul_udiv (-x) y]; ring
  · rw [BitVec.udiv_eq, ← sub_mul_udiv (-x) (-y)]; ring

end Signed

/-- `sdiv64` is `BitVec.sdiv`: the quotient of the absolute values, negated when the signs
differ, for every nonzero divisor. -/
theorem sdiv64_eq (n : BitVec 64) {d : BitVec 64} (hd : d ≠ 0) : sdiv64 n d = some (n.sdiv d) := by
  have hd' : -d ≠ 0 := neg_ne_zero.mpr hd
  unfold sdiv64
  rw [BitVec.zero_sle_eq_not_msb, BitVec.zero_sle_eq_not_msb, BitVec.slt_zero_eq_msb,
    BitVec.slt_zero_eq_msb, BitVec.sdiv_eq]
  cases n.msb <;> cases d.msb <;> simp [udiv64_eq _ hd, udiv64_eq _ hd']

lemma umod64_eq (n : BitVec 64) {d : BitVec 64} (hd : d ≠ 0) :
    umod64 n d = some ((n % d).setWidth 32) := by
  unfold umod64
  rw [udiv64_eq n hd, Option.map_some, sub_mul_udiv]

lemma smod64_eq (n : BitVec 64) {d : BitVec 64} (hd : d ≠ 0) :
    smod64 n d = some ((n.srem d).setWidth 32) := by
  unfold smod64
  rw [sdiv64_eq n hd, Option.map_some, sub_mul_sdiv]

/-- `__udivdi3` returns `⌊n / d⌋` for every nonzero divisor, and `__divdi3` the quotient
truncated toward zero whenever it is representable; no `divl` traps on the way. -/
theorem udivdi3_divdi3_eq {n d : BitVec 64} (hd : d ≠ 0) :
    (∃ q, udivdi3 n d = some q ∧ q.toNat = n.toNat / d.toNat) ∧
      (¬ (n = BitVec.intMin 64 ∧ d = -1) →
        ∃ q, divdi3 n d = some q ∧ q.toInt = n.toInt.tdiv d.toInt) := by
  refine ⟨⟨n / d, udiv64_eq n hd, BitVec.toNat_udiv⟩, fun hov => ?_⟩
  exact ⟨n.sdiv d, sdiv64_eq n hd, BitVec.toInt_sdiv_of_ne_or_ne n d (not_and_or.mp hov)⟩

/-- A divisor above `2^32`, where `udiv64` normalises and corrects. -/
theorem udivdi3_divdi3_at_large_divisor :
    (8589934593 : BitVec 64) ≠ 0 ∧
      ((∃ q, udivdi3 (2^40 + 5) 8589934593 = some q ∧
        q.toNat = (2^40 + 5 : BitVec 64).toNat / (8589934593 : BitVec 64).toNat) ∧
      (¬ ((2^40 + 5 : BitVec 64) = BitVec.intMin 64 ∧ (8589934593 : BitVec 64) = -1) →
        ∃ q, divdi3 (2^40 + 5) 8589934593 = some q ∧
          q.toInt = (2^40 + 5 : BitVec 64).toInt.tdiv (8589934593 : BitVec 64).toInt)) :=
  ⟨by decide, udivdi3_divdi3_eq (by decide)⟩

/-- `__umoddi3` and `__moddi3` return the remainder cut to 32 bits by the return types of
`umod64` and `smod64`: the unsigned one is right exactly when the remainder is below `2^32`,
the signed one exactly when it is an `int32_t`. -/
theorem moddi3_truncates {n d : BitVec 64} (hd : d ≠ 0) :
    umoddi3 n d = some (BitVec.ofNat 64 (n.toNat % d.toNat % 2^32)) ∧
      (umoddi3 n d = some (n % d) ↔ n.toNat % d.toNat < 2^32) ∧
      (∃ r, moddi3 n d = some r ∧ r.toInt = (n.toInt.tmod d.toInt).bmod (2^32)) ∧
      (moddi3 n d = some (n.srem d) ↔
        -2^31 ≤ n.toInt.tmod d.toInt ∧ n.toInt.tmod d.toInt < 2^31) := by
  have hr : (n % d).toNat = n.toNat % d.toNat := BitVec.toNat_umod
  have hr₆₄ : n.toNat % d.toNat % 2^32 < 2^64 := (Nat.mod_lt _ (by norm_num)).trans (by omega)
  have hu : umoddi3 n d = some (BitVec.ofNat 64 (n.toNat % d.toNat % 2^32)) := by
    unfold umoddi3
    rw [umod64_eq n hd, Option.map_some]
    apply congrArg some
    apply BitVec.eq_of_toNat_eq
    rw [BitVec.toNat_setWidth, BitVec.toNat_setWidth, hr, BitVec.toNat_ofNat,
      Nat.mod_eq_of_lt hr₆₄]
  -- the signed remainder keeps its low 32 bits, read back as an `int32_t`
  have hs : (((n.srem d).setWidth 32).signExtend 64).toInt =
      (n.toInt.tmod d.toInt).bmod (2^32) := by
    rw [BitVec.toInt_signExtend_of_le (by omega), BitVec.toInt_setWidth, ← BitVec.toInt_srem,
      BitVec.toInt_eq_toNat_bmod (n.srem d), Int.bmod_bmod_of_dvd (by norm_num)]
  have hm : moddi3 n d = some (((n.srem d).setWidth 32).signExtend 64) := by
    unfold moddi3
    rw [smod64_eq n hd, Option.map_some]
  refine ⟨hu, ⟨fun h => ?_, fun h => ?_⟩, ⟨_, hm, hs⟩, ⟨fun h => ?_, fun h => ?_⟩⟩
  · have h₁ := congrArg BitVec.toNat (Option.some.inj (hu.symm.trans h))
    rw [BitVec.toNat_ofNat, Nat.mod_eq_of_lt hr₆₄, hr] at h₁
    rw [← h₁]
    exact Nat.mod_lt _ (by norm_num)
  · rw [hu]
    apply congrArg some
    apply BitVec.eq_of_toNat_eq
    rw [BitVec.toNat_ofNat, Nat.mod_eq_of_lt h, Nat.mod_eq_of_lt (h.trans (by omega)), hr]
  · have h₁ := congrArg BitVec.toInt (Option.some.inj (hm.symm.trans h))
    rw [hs, BitVec.toInt_srem] at h₁
    have h₂ := Int.le_bmod (x := n.toInt.tmod d.toInt) (m := 2^32) (by norm_num)
    have h₃ := Int.bmod_lt (x := n.toInt.tmod d.toInt) (m := 2^32) (by norm_num)
    rw [h₁] at h₂ h₃
    norm_num at h₂ h₃
    exact ⟨h₂, h₃⟩
  · rw [hm]
    apply congrArg some
    rw [← BitVec.toInt_inj, hs, BitVec.toInt_srem]
    exact Int.bmod_eq_of_le (by norm_num; exact h.1) (by norm_num; exact h.2)

/-- `__umoddi3 (2^32, 2^32 + 1)` returns `0` where the remainder is `2^32`, and `__moddi3`
does the same. -/
theorem moddi3_truncates_at_two_pow :
    (4294967297 : BitVec 64) ≠ 0 ∧
      umoddi3 4294967296 4294967297 = some 0 ∧
      (4294967296 % 4294967297 : BitVec 64) = 4294967296 ∧
      moddi3 4294967296 4294967297 ≠ some ((4294967296 : BitVec 64).srem 4294967297) := by
  have hd : (4294967297 : BitVec 64) ≠ 0 := by decide
  obtain ⟨hu, -, -, hs⟩ := moddi3_truncates (n := 4294967296) hd
  refine ⟨hd, by rw [hu]; decide, by decide, fun h => ?_⟩
  exact absurd (hs.mp h) (by decide)

end TinyOs
