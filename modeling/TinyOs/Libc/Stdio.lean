import TinyOs.Libc.String
import Mathlib.Data.Nat.Digits.Defs

/-!
Formatted output, `lib/stdio.c`. `__vprintf` hands the characters it formats to an `output`
callback one at a time and does nothing else with the callback's `aux`, so it is modelled by the
list of characters it hands over (`vprintf`), and a caller by its callback folded over that list.
An argument list is a list of values (`VaArg`); a `va_arg` of a kind the next argument is not, or
past the last argument, is `none`, and so is a conversion that runs into the format's NUL. `int`
is 32 bits wide, as are `long`, `size_t` and `ptrdiff_t`; `long long` and `intmax_t` are 64.

* `parseConversion`: `parse_conversion`, the flags, width, precision and type of a conversion;
* `formatInteger`: `format_integer`, digits produced least significant first into `buf[64]`
  with grouping commas, zeros for the precision, the octal `#` zero, then the padding;
  `format_integer_spells`: what it emits, for every value, base and conversion: the digits of the
  value in the base, with a comma before every group of digits from the least significant,
  zeros up to the precision but at most up to 63 characters of `buf`, and padding that is emitted
  twice when both the `-` and `0` flags stand, as `parse_conversion` leaves them after a negative
  `*` width;
* `vprintf`: `__vprintf`; `vsnprintf`: `vsnprintf` over it; `vsnprintf_truncates`: the first
  `buf_size - 1` characters are stored, then a NUL, nothing else is written, and the number of
  characters formatted is returned.
-/

namespace TinyOs

namespace Libc

/-- The bytes of a string literal. -/
def bytes (s : String) : List UInt8 := s.toList.map Char.toUInt8

/-- A value of `w` bits read as a two's complement integer: a conversion to a signed type. -/
def toSigned (w : ℕ) (v : ℤ) : ℤ := Int.bmod v (2 ^ w)

/-- A value of `w` bits read as an unsigned integer: a conversion to an unsigned type. -/
def toUnsigned (w : ℕ) (v : ℤ) : ℕ := (v % 2 ^ w).toNat

/-- `strnlen (string, maxlen)`, over the bytes of `string`. -/
def strnlen : List UInt8 → ℕ → ℕ
  | [], _ => 0
  | x :: s, maxlen => if x ≠ 0 ∧ 0 < maxlen then strnlen s (maxlen - 1) + 1 else 0

/-! ### Arguments and conversions -/

/-- An argument of a variadic call: an integer or pointer value, or a `char *`, given by the
bytes of its string before the NUL (`none` for NULL). -/
inductive VaArg
  | int (v : ℤ)
  | str (s : Option (List UInt8))
  deriving DecidableEq, Repr

/-- `va_arg (args, T)` for an integer or pointer type `T`: the value and the arguments left. -/
def vaArgInt : List VaArg → Option (ℤ × List VaArg)
  | .int v :: args => some (v, args)
  | _ => none

/-- `va_arg (args, char *)`. -/
def vaArgStr : List VaArg → Option (Option (List UInt8) × List VaArg)
  | .str s :: args => some (s, args)
  | _ => none

/-- The type of the argument of a conversion, from its length modifier. -/
inductive ConvType
  | char | short | int | intmax | long | longlong | ptrdifft | sizet
  deriving DecidableEq, Repr

/-- `struct printf_conversion`: a field for each flag, the minimum field width, the precision
(`-1` for none) and the type. -/
structure PrintfConversion where
  minus : Bool
  plus : Bool
  space : Bool
  pound : Bool
  zero : Bool
  group : Bool
  width : ℤ
  precision : ℤ
  type : ConvType
  deriving DecidableEq, Repr

/-- The flag characters `-`, `+`, ` `, `#`, `0` and `'` at the start of a conversion: the
conversion with their flags set, and the format after them. -/
def parseFlags (c : PrintfConversion) : List UInt8 → PrintfConversion × List UInt8
  | 45 :: format => parseFlags { c with minus := true } format
  | 43 :: format => parseFlags { c with plus := true } format
  | 32 :: format => parseFlags { c with space := true } format
  | 35 :: format => parseFlags { c with pound := true } format
  | 48 :: format => parseFlags { c with zero := true } format
  | 39 :: format => parseFlags { c with group := true } format
  | format => (c, format)

/-- `for (; isdigit (*format); format++) n = n * 10 + *format - '0';` in `int`. -/
def parseDigits (n : ℤ) : List UInt8 → ℤ × List UInt8
  | [] => (n, [])
  | d :: format =>
    if 48 ≤ d ∧ d ≤ 57 then parseDigits (toSigned 32 (n * 10 + d.toNat - 48)) format
    else (n, d :: format)

/-- The length modifiers `hh`, `h`, `j`, `ll`, `l`, `t` and `z`. -/
def parseType : List UInt8 → ConvType × List UInt8
  | 104 :: 104 :: format => (.char, format)
  | 104 :: format => (.short, format)
  | 106 :: format => (.intmax, format)
  | 108 :: 108 :: format => (.longlong, format)
  | 108 :: format => (.long, format)
  | 116 :: format => (.ptrdifft, format)
  | 122 :: format => (.sizet, format)
  | format => (.int, format)

/-- `parse_conversion (format, &c, &args)` from the character after the `%`: the conversion, the
format from the conversion character on, and the arguments left after the `*` widths and
precisions. -/
def parseConversion (format : List UInt8) (args : List VaArg) :
    Option (PrintfConversion × List UInt8 × List VaArg) := do
  let f := parseFlags ⟨false, false, false, false, false, false, 0, -1, .int⟩ format
  -- `-` overrides `0` and `+` overrides ` `, among the flag characters
  let c := { f.1 with zero := f.1.zero && !f.1.minus, space := f.1.space && !f.1.plus }
  let w ← match f.2 with
    | 42 :: format => do
      let a ← vaArgInt args
      some (toSigned 32 a.1, format, a.2)
    | format => some ((parseDigits 0 format).1, (parseDigits 0 format).2, args)
  -- a negative width is the `-` flag and its absolute value
  let c := if w.1 < 0 then { c with width := toSigned 32 (-w.1), minus := true }
    else { c with width := w.1 }
  let p ← match w.2.1 with
    | 46 :: 42 :: format => do
      let a ← vaArgInt w.2.2
      some (if toSigned 32 a.1 < 0 then -1 else toSigned 32 a.1, format, a.2)
    | 46 :: format =>
      let d := parseDigits 0 format
      some (if d.1 < 0 then -1 else d.1, d.2, w.2.2)
    | format => some (-1, format, w.2.2)
  -- a precision overrides `0`
  let c := { c with precision := p.1, zero := c.zero && !decide (0 ≤ p.1) }
  let t := parseType p.2.1
  some ({ c with type := t.1 }, t.2, p.2.2)

/-! ### `format_integer` -/

/-- `struct integer_base`: the base, its digit characters, the `x` of its `0x` prefix (`0` for
none) and the number of digits in a group. -/
structure IntegerBase where
  base : ℕ
  digits : List UInt8
  x : UInt8
  group : ℕ
  deriving DecidableEq, Repr

/-- `base_d`. -/
def baseD : IntegerBase := ⟨10, bytes "0123456789", 0, 3⟩

/-- `base_o`. -/
def baseO : IntegerBase := ⟨8, bytes "01234567", 0, 3⟩

/-- `base_x`. -/
def baseX : IntegerBase := ⟨16, bytes "0123456789abcdef", 120, 4⟩

/-- `base_X`. -/
def baseBigX : IntegerBase := ⟨16, bytes "0123456789ABCDEF", 88, 4⟩

/-- The sign character of `format_integer`, `0` for none: an unsigned conversion has none. -/
def signChar (isSigned negative : Bool) (c : PrintfConversion) : UInt8 :=
  if isSigned then
    if c.plus then (if negative then 45 else 43)
    else if c.space then (if negative then 45 else 32)
    else if negative then 45 else 0
  else 0

/-- The digit loop of `format_integer`, at most `fuel` steps from `value`, `digitCnt` digits
stored before: the characters it stores into `buf`, the least significant digit first, with a
`,` before every `b.group`-th digit under the `'` flag. -/
def digitLoop (b : IntegerBase) (grouped : Bool) : ℕ → ℕ → ℕ → List UInt8
  | 0, _, _ => []
  | fuel + 1, value, digitCnt =>
    if value > 0 then
      (if grouped ∧ digitCnt > 0 ∧ digitCnt % b.group = 0 then [44] else []) ++
        b.digits.getD (value % b.base) 0 :: digitLoop b grouped fuel (value / b.base) (digitCnt + 1)
    else []

/-- `while (cp - buf < precision && cp < buf + sizeof buf - 1) *cp++ = '0';`, at most `fuel`
steps, on the characters stored in `buf`. -/
def zeroLoop (precision : ℤ) : ℕ → List UInt8 → List UInt8
  | 0, buf => buf
  | fuel + 1, buf =>
    if (buf.length : ℤ) < precision ∧ buf.length < 64 - 1 then zeroLoop precision fuel (buf ++ [48])
    else buf

/-- `output_dup (ch, cnt, output, aux)`. -/
def outputDup (ch : UInt8) (cnt : ℕ) : List UInt8 := List.replicate cnt ch

/-- The characters `format_integer` stores in `buf`, in the order it stores them: the digits,
the zeros of the precision and the zero of the `#` flag in octal. The digit loop runs out of
digits before it runs out of its `value` steps. -/
def formatBuf (value : ℕ) (b : IntegerBase) (c : PrintfConversion) : List UInt8 :=
  let precision : ℤ := if c.precision < 0 then 1 else c.precision
  let buf := zeroLoop precision (64 - 1) (digitLoop b c.group value value 0)
  -- the `#` flag in octal: the output starts with a zero
  if c.pound ∧ b.base = 8 ∧ (buf = [] ∨ buf.getLast? ≠ some 48) then buf ++ [48] else buf

/-- `format_integer (value, is_signed, negative, b, c, output, aux)`: the characters it
outputs. -/
def formatInteger (value : ℕ) (isSigned negative : Bool) (b : IntegerBase) (c : PrintfConversion) :
    List UInt8 :=
  let sign := signChar isSigned negative c
  let x : UInt8 := if c.pound ∧ value ≠ 0 then b.x else 0
  let buf := formatBuf value b c
  let padCnt := toSigned 32 (c.width - buf.length - (if x ≠ 0 then 2 else 0) -
    (if sign ≠ 0 then 1 else 0))
  let padCnt := if padCnt < 0 then 0 else padCnt.toNat
  (if !(c.minus || c.zero) then outputDup 32 padCnt else []) ++
    (if sign ≠ 0 then [sign] else []) ++
    (if x ≠ 0 then [48, x] else []) ++
    (if c.zero then outputDup 48 padCnt else []) ++
    buf.reverse ++
    (if c.minus then outputDup 32 padCnt else [])

/-! ### `__vprintf` -/

/-- `format_string (string, length, c, output, aux)`. -/
def formatString (string : List UInt8) (length : ℤ) (c : PrintfConversion) : List UInt8 :=
  (if c.width > length ∧ !c.minus then outputDup 32 (c.width - length).toNat else []) ++
    string.take length.toNat ++
    (if c.width > length ∧ c.minus then outputDup 32 (c.width - length).toNat else [])

/-- The value of a `d` or `i` conversion's argument, as the conversion's type reads it, in
`intmax_t`. -/
def signedValue (t : ConvType) (v : ℤ) : ℤ :=
  match t with
  | .char => toSigned 8 (toSigned 32 v)
  | .short => toSigned 16 (toSigned 32 v)
  | .int => toSigned 32 v
  | .intmax => toSigned 64 v
  | .long => toSigned 32 v
  | .longlong => toSigned 64 v
  | .ptrdifft => toSigned 32 v
  | .sizet =>
    -- read as `size_t`, then wrapped to a negative value above `SIZE_MAX / 2`
    let u : ℤ := toUnsigned 32 v
    if u > (2 ^ 32 - 1) / 2 then u - (2 ^ 32 - 1) - 1 else u

/-- The value of an `o`, `u`, `x` or `X` conversion's argument, as the conversion's type reads
it, in `uintmax_t`. -/
def unsignedValue (t : ConvType) (v : ℤ) : ℕ :=
  match t with
  | .char => toUnsigned 8 (toUnsigned 32 v)
  | .short => toUnsigned 16 (toUnsigned 32 v)
  | .int => toUnsigned 32 v
  | .intmax => toUnsigned 64 v
  | .long => toUnsigned 32 v
  | .longlong => toUnsigned 64 v
  -- `ptrdiff_t` sign-extended, then masked with `((uintmax_t) PTRDIFF_MAX << 1) | 1`
  | .ptrdifft => toUnsigned 64 (toSigned 32 v) &&& ((2 ^ 31 - 1) <<< 1 ||| 1)
  | .sizet => toUnsigned 32 v

/-- The `switch (*format)` of `__vprintf` on the conversion character `conv`: the characters
output and the arguments left. `nested msg conv` is `__printf (msg, output, aux, conv)`. -/
def convert (nested : List UInt8 → UInt8 → Option (List UInt8)) (c : PrintfConversion)
    (conv : UInt8) (args : List VaArg) : Option (List UInt8 × List VaArg) :=
  match conv with
  | 100 | 105 => do
    let a ← vaArgInt args
    let value := signedValue c.type a.1
    some (formatInteger value.natAbs true (decide (value < 0)) baseD c, a.2)
  | 111 | 117 | 120 | 88 => do
    let a ← vaArgInt args
    let b := match conv with
      | 111 => baseO
      | 117 => baseD
      | 120 => baseX
      | _ => baseBigX
    some (formatInteger (unsignedValue c.type a.1) false false b c, a.2)
  | 99 => do
    let a ← vaArgInt args
    some (formatString [(toUnsigned 8 a.1).toUInt8] 1 c, a.2)
  | 115 => do
    let a ← vaArgStr args
    let s := a.1.getD (bytes "(null)")
    some (formatString s (strnlen s (toUnsigned 32 c.precision)) c, a.2)
  | 112 => do
    -- pointers are `%#x`: the flags are `POUND` alone
    let a ← vaArgInt args
    let c : PrintfConversion :=
      { c with minus := false, plus := false, space := false, pound := true, zero := false,
               group := false }
    some (formatInteger (toUnsigned 32 a.1) false false baseX c, a.2)
  | 102 | 101 | 69 | 103 | 71 | 110 => do
    let out ← nested (bytes "<<no %%%c in kernel>>") conv
    some (out, args)
  | _ => do
    let out ← nested (bytes "<<no %%%c conversion>>") conv
    some (out, args)

/-- The loop of `__vprintf` over `format`, at most `fuel` steps, `nested` standing for its
calls of `__printf`: the characters output. -/
def vprintfLoop (nested : List UInt8 → UInt8 → Option (List UInt8)) :
    ℕ → List UInt8 → List VaArg → Option (List UInt8)
  | 0, _, _ => none
  | _ + 1, [], _ => some []
  | fuel + 1, ch :: format, args =>
    if ch ≠ 37 then (ch :: ·) <$> vprintfLoop nested fuel format args
    else
      match format with
      | 37 :: format => (37 :: ·) <$> vprintfLoop nested fuel format args
      | format => do
        let p ← parseConversion format args
        match p.2.1 with
        -- `switch (*format)` on the NUL, and `format++` past it
        | [] => none
        | conv :: format => do
          let r ← convert nested p.1 conv p.2.2
          (r.1 ++ ·) <$> vprintfLoop nested fuel format r.2

/-- `__printf (msg, output, aux, ch)` on the messages for the conversions `__vprintf` does not
do, whose own conversions are `%%` and `%c`: `__vprintf` with no nested call. -/
def vprintfMsg (msg : List UInt8) (ch : UInt8) : Option (List UInt8) :=
  vprintfLoop (fun _ _ => none) (msg.length + 1) msg [.int ch.toNat]

/-- `__vprintf (format, args, output, aux)`: the characters it hands to `output`, in order. Each
step of its loop takes at least a character of `format`. -/
def vprintf (format : List UInt8) (args : List VaArg) : Option (List UInt8) :=
  vprintfLoop vprintfMsg (format.length + 1) format args

/-! ### `vsnprintf` -/

/-- `struct vsnprintf_aux`. -/
structure VsnprintfAux where
  p : ℕ
  length : ℤ
  maxLength : ℤ

/-- `vsnprintf_helper (ch, aux)`: `ch` is stored while `length` is below `max_length`, and
counted either way. -/
def vsnprintfHelper (ch : UInt8) (s : (ℕ → UInt8) × VsnprintfAux) :
    (ℕ → UInt8) × VsnprintfAux :=
  if s.2.length < s.2.maxLength then
    (Function.update s.1 s.2.p ch,
      { s.2 with p := s.2.p + 1, length := toSigned 32 (s.2.length + 1) })
  else (s.1, { s.2 with length := toSigned 32 (s.2.length + 1) })

/-- `vsnprintf (buffer, buf_size, format, args)`: the memory after it and the `int` it
returns. -/
def vsnprintf (mem : ℕ → UInt8) (buffer bufSize : ℕ) (format : List UInt8) (args : List VaArg) :
    Option ((ℕ → UInt8) × ℤ) := do
  let out ← vprintf format args
  let aux : VsnprintfAux := ⟨buffer, 0, toSigned 32 (if bufSize > 0 then bufSize - 1 else 0)⟩
  let r := out.foldl (fun s ch => vsnprintfHelper ch s) (mem, aux)
  some (if bufSize > 0 then Function.update r.1 r.2.p 0 else r.1, r.2.length)

/-- Within `int`, a conversion to `int` changes nothing. -/
lemma toSigned_32_of_lt {v : ℤ} (h0 : -2 ^ 31 ≤ v) (h1 : v < 2 ^ 31) : toSigned 32 v = v :=
  Int.bmod_eq_of_le (by norm_num; omega) (by norm_num; omega)

section Vsnprintf

variable (buffer : ℕ) {M : ℕ}

/-- One call of `vsnprintf_helper`, `n` characters counted before: the character is stored
at `buffer + n` while `n` is below `max_length`. -/
lemma vsnprintfHelper_eq (mem : ℕ → UInt8) {n : ℕ} (hn : n + 1 < 2 ^ 31) (ch : UInt8) :
    vsnprintfHelper ch (mem, ⟨buffer + min n M, n, M⟩) =
      (if n < M then Function.update mem (buffer + n) ch else mem,
        ⟨buffer + min (n + 1) M, ((n + 1 : ℕ) : ℤ), M⟩) := by
  have hlen : toSigned 32 ((n : ℤ) + 1) = ((n + 1 : ℕ) : ℤ) := by
    rw [toSigned_32_of_lt (by omega) (by omega)]
    push_cast
    rfl
  by_cases hlt : n < M
  · rw [vsnprintfHelper, if_pos (show (n : ℤ) < M by exact_mod_cast hlt), if_pos hlt, hlen,
      Nat.min_eq_left hlt.le, Nat.min_eq_left hlt]
    rfl
  · rw [vsnprintfHelper, if_neg (show ¬(n : ℤ) < M by exact_mod_cast hlt), if_neg hlt, hlen,
      Nat.min_eq_right (by omega), Nat.min_eq_right (show M ≤ n + 1 by omega)]

/-- What one call of `vsnprintf_helper` can change: the byte at `buffer + n`, and only
while `n` is below `M`. -/
lemma vsnprintfHelper_changes {mem : ℕ → UInt8} {n : ℕ} {ch : UInt8} {k : ℕ}
    (hk : (if n < M then Function.update mem (buffer + n) ch else mem) k ≠ mem k) :
    n < M ∧ k = buffer + n := by
  by_cases hlt : n < M
  · rw [if_pos hlt] at hk
    exact ⟨hlt, by_contra fun hne => hk (Function.update_of_ne hne ..)⟩
  · rw [if_neg hlt] at hk
    exact absurd rfl hk

/-- The calls of `vsnprintf_helper` over `l`, `n` characters counted before: the first
`M - n` characters of `l` are stored from the output position on, and nothing else. The
induction is on `l`. -/
lemma foldl_vsnprintfHelper :
    ∀ (l : List UInt8) (mem : ℕ → UInt8) (n : ℕ), n + l.length < 2 ^ 31 →
      ∃ mem', l.foldl (fun s ch => vsnprintfHelper ch s) (mem, ⟨buffer + min n M, n, M⟩) =
          (mem', ⟨buffer + min (n + l.length) M, ((n + l.length : ℕ) : ℤ), M⟩) ∧
        Holds mem' (buffer + min n M) (l.take (M - n)) ∧
        ∀ k, mem' k ≠ mem k → buffer + min n M ≤ k ∧ k < buffer + min (n + l.length) M
  | [], mem, n, _ => ⟨mem, rfl, by simp, fun _ h => absurd rfl h⟩
  | ch :: l, mem, n, hlen => by
    have hcons : n + 1 + l.length = n + (ch :: l).length := by simp; omega
    obtain ⟨mem', hfold, hheld, hframe⟩ :=
      foldl_vsnprintfHelper l (if n < M then Function.update mem (buffer + n) ch else mem) (n + 1)
        (by omega)
    rw [hcons] at hfold hframe
    refine ⟨mem', ?_, ?_, fun k hk => ?_⟩
    · rw [List.foldl_cons, vsnprintfHelper_eq buffer mem (by simp at hlen; omega), hfold]
    · by_cases hlt : n < M
      · -- `ch` is stored at `buffer + n`, and the rest after it
        rw [show M - n = M - (n + 1) + 1 by omega, List.take_succ_cons, holds_cons,
          Nat.min_eq_left hlt.le]
        rw [Nat.min_eq_left (show n + 1 ≤ M by omega), ← Nat.add_assoc] at hheld
        refine ⟨?_, hheld⟩
        by_contra hne
        have := (hframe (buffer + n) (by rwa [if_pos hlt, Function.update_self]))
        omega
      · rw [show M - n = 0 by omega]
        simp
    · -- a changed byte was changed either by this call or by the rest of the run
      simp only [List.length_cons] at hframe ⊢
      by_cases hrest : mem' k = (if n < M then Function.update mem (buffer + n) ch else mem) k
      · obtain ⟨hlt, rfl⟩ := vsnprintfHelper_changes buffer (hrest ▸ hk)
        omega
      · have := hframe k hrest
        omega

end Vsnprintf

/-- **`vsnprintf` truncates**: with `buf_size - 1` and the number `N` of characters `__vprintf`
formats within `int`, `vsnprintf` stores the first `min (N, buf_size - 1)` of them from `buffer`
on and a NUL after them when `buf_size > 0`, changes no other byte (none at all when `buf_size`
is `0`, none at or past `buffer + buf_size`), and returns `N`. -/
theorem vsnprintf_truncates {format : List UInt8} {args : List VaArg} {out : List UInt8}
    (hout : vprintf format args = some out) (hN : out.length ≤ 2 ^ 31 - 1) {bufSize : ℕ}
    (hsize : bufSize - 1 ≤ 2 ^ 31 - 1) (mem : ℕ → UInt8) (buffer : ℕ) :
    ∃ mem', vsnprintf mem buffer bufSize format args = some (mem', (out.length : ℤ)) ∧
      (0 < bufSize → Holds mem' buffer (out.take (bufSize - 1) ++ [0])) ∧
      ∀ k, mem' k ≠ mem k → buffer ≤ k ∧ k < buffer + min (out.length + 1) bufSize := by
  -- `max_length` is `buf_size - 1` as an `int`, and `0` for an empty buffer
  have hmax : toSigned 32 (if bufSize > 0 then (bufSize : ℤ) - 1 else 0) = ((bufSize - 1 : ℕ) : ℤ) := by
    rw [toSigned_32_of_lt (by split_ifs <;> omega) (by split_ifs <;> omega)]
    split_ifs <;> omega
  obtain ⟨mem₁, hfold, hheld, hframe⟩ :=
    foldl_vsnprintfHelper buffer (M := bufSize - 1) out mem 0 (by omega)
  simp only [Nat.zero_min, Nat.add_zero, Nat.zero_add, Nat.cast_zero] at hfold
  simp only [Nat.zero_min, Nat.add_zero, Nat.zero_add, Nat.sub_zero] at hheld hframe
  have hrun : vsnprintf mem buffer bufSize format args =
      some (if bufSize > 0 then Function.update mem₁ (buffer + min out.length (bufSize - 1)) 0
        else mem₁, (out.length : ℤ)) := by
    simp only [vsnprintf, hout, Option.bind_eq_bind, Option.bind_some]
    rw [hmax, hfold]
  by_cases hpos : 0 < bufSize
  · -- the NUL goes where the output position ends, past the characters stored
    refine ⟨Function.update mem₁ (buffer + min out.length (bufSize - 1)) 0, ?_, fun _ => ?_,
      fun k hk => ?_⟩
    · rw [hrun, if_pos hpos]
    · refine holds_append.mpr ⟨hheld.congr fun k _ hk => Function.update_of_ne ?_ _ _, ?_⟩
      · simp at hk
        omega
      · rw [List.length_take, Nat.min_comm]
        exact holds_cons.mpr ⟨Function.update_self .., holds_nil⟩
    · by_cases hend : k = buffer + min out.length (bufSize - 1)
      · omega
      · rw [Function.update_of_ne hend] at hk
        have := hframe k hk
        omega
  · refine ⟨mem₁, ?_, fun h => absurd h hpos, fun k hk => ?_⟩
    · rw [hrun, if_neg hpos]
    · have := hframe k hk
      omega

theorem vsnprintf_truncates_abc :
    ∃ mem', vsnprintf (fun _ => 0) 1 2 (bytes "abc") [] = some (mem', ((bytes "abc").length : ℤ)) ∧
      (0 < 2 → Holds mem' 1 ((bytes "abc").take (2 - 1) ++ [0])) ∧
      ∀ k, mem' k ≠ 0 → 1 ≤ k ∧ k < 1 + min ((bytes "abc").length + 1) 2 :=
  vsnprintf_truncates (by decide) (by decide) (by decide) _ 1

/-! ### What `format_integer` emits -/

/-- The four bases of `__vprintf`. -/
def integerBases : List IntegerBase := [baseD, baseO, baseX, baseBigX]

/-- What `format_integer` needs of its base: at least two digits, distinct, the first `0`, none a
comma, and an `x` for the prefix exactly in base 16. -/
structure IntegerBase.Valid (b : IntegerBase) : Prop where
  two_le : 2 ≤ b.base
  idxOf_digit : ∀ d < b.base, b.digits.idxOf (b.digits.getD d 0) = d
  digit_ne_comma : ∀ d < b.base, b.digits.getD d 0 ≠ 44
  idxOf_zero : b.digits.idxOf 48 = 0
  x_ne_zero : b.x ≠ 0 ↔ b.base = 16

lemma valid_of_mem_integerBases {b : IntegerBase} (hb : b ∈ integerBases) : b.Valid := by
  simp only [integerBases, List.mem_cons, List.not_mem_nil, or_false] at hb
  rcases hb with rfl | rfl | rfl | rfl <;>
    exact ⟨by decide, by decide, by decide, by decide, by decide⟩

/-- The digit characters `ds`, the least significant first and the first of them the `k`-th of
its number, with a `,` before every digit whose place is a nonzero multiple of `g` when
`grouped`: a comma between every group of `g` digits, counted from the least significant. -/
def insertCommas (g : ℕ) (grouped : Bool) : ℕ → List UInt8 → List UInt8
  | _, [] => []
  | k, d :: ds =>
    (if grouped ∧ k > 0 ∧ k % g = 0 then [44] else []) ++ d :: insertCommas g grouped (k + 1) ds

/-- The characters of `buf`, the least significant first, as the digits of `value` in the base
(none for `0`) grouped under the `'` flag, then zeros up to the precision (`1` when none is
given) but not past 63 characters, then a zero under `#` in octal when there is none above. -/
def integerDigits (b : IntegerBase) (c : PrintfConversion) (value : ℕ) : List UInt8 :=
  let digits := insertCommas b.group c.group 0 ((Nat.digits b.base value).map (b.digits.getD · 0))
  let precision : ℤ := if c.precision < 0 then 1 else c.precision
  let filled := digits ++ List.replicate (min precision 63 - digits.length).toNat 48
  if c.pound ∧ b.base = 8 ∧ filled.getLast? ≠ some 48 then filled ++ [48] else filled

/-- The sign and the prefix ahead of the digits: `0x` or `0X` only for a nonzero value in base 16
under `#`. -/
def integerHead (isSigned negative : Bool) (b : IntegerBase) (c : PrintfConversion) (value : ℕ) :
    List UInt8 :=
  (if signChar isSigned negative c ≠ 0 then [signChar isSigned negative c] else []) ++
    (if c.pound ∧ value ≠ 0 ∧ b.base = 16 then [48, b.x] else [])

/-- The padding to the field `width` around `body` characters, computed in `int`. -/
def integerPad (width : ℤ) (body : ℕ) : ℕ := (toSigned 32 (width - body)).toNat

/-- The digit loop stores the digits of the value, the least significant first, with the commas
of `insertCommas`. The induction is on the steps left, which outnumber the digits. -/
lemma digitLoop_eq {b : IntegerBase} (hb : 2 ≤ b.base) (grouped : Bool) :
    ∀ (fuel value k : ℕ), value ≤ fuel →
      digitLoop b grouped fuel value k =
        insertCommas b.group grouped k ((Nat.digits b.base value).map (b.digits.getD · 0))
  | 0, value, k, h => by
    obtain rfl : value = 0 := Nat.le_zero.mp h
    simp [digitLoop, insertCommas]
  | fuel + 1, value, k, h => by
    rcases Nat.eq_zero_or_pos value with rfl | hpos
    · simp [digitLoop, insertCommas]
    · have hdiv : value / b.base < value := Nat.div_lt_self hpos hb
      rw [digitLoop, if_pos hpos, Nat.digits_def' hb hpos, List.map_cons, insertCommas,
        digitLoop_eq hb grouped fuel (value / b.base) (k + 1) (by omega)]

/-- The zero loop appends zeros up to the precision and up to 63 characters, one a step. -/
lemma zeroLoop_eq (precision : ℤ) : ∀ (fuel : ℕ) (buf : List UInt8),
    zeroLoop precision fuel buf =
      buf ++ List.replicate (min fuel (min precision 63 - buf.length).toNat) 48
  | 0, buf => by simp [zeroLoop]
  | fuel + 1, buf => by
    rw [zeroLoop]
    split_ifs with h
    · rw [zeroLoop_eq precision fuel, List.length_append, List.length_singleton,
        List.append_assoc, List.singleton_append, ← List.replicate_succ]
      congr 2
      omega
    · have hnone : (min precision 63 - buf.length).toNat = 0 := by omega
      simp [hnone]

/-- `buf` as the loops of `format_integer` store it is `integerDigits`. -/
lemma formatBuf_eq {b : IntegerBase} (hb : b.Valid) (value : ℕ) (c : PrintfConversion) :
    formatBuf value b c = integerDigits b c value := by
  have hzeros : ∀ (l : List UInt8) (p : ℤ),
      min (64 - 1) (min p 63 - l.length).toNat = (min p 63 - l.length).toNat := fun _ _ => by
    omega
  -- `cp == buf` is the case `cp[-1] != '0'` leaves out
  have hempty : ∀ l : List UInt8, (l = [] ∨ l.getLast? ≠ some 48) ↔ l.getLast? ≠ some 48 :=
    fun l => ⟨fun h => h.elim (fun h => by simp [h]) id, Or.inr⟩
  simp only [formatBuf, integerDigits, digitLoop_eq hb.two_le c.group value value 0 le_rfl,
    zeroLoop_eq, hzeros, hempty]

/-- Taking the commas out of `insertCommas` leaves the characters it was given, theirs out. -/
lemma filter_insertCommas (g : ℕ) (grouped : Bool) : ∀ (k : ℕ) (ds : List UInt8),
    (insertCommas g grouped k ds).filter (· ≠ 44) = ds.filter (· ≠ 44)
  | _, [] => rfl
  | k, d :: ds => by
    rw [insertCommas, List.filter_append, List.filter_cons, List.filter_cons,
      filter_insertCommas g grouped (k + 1) ds]
    split_ifs <;> simp

/-- Without its commas, `buf` read in the base is the value: the zeros after the digits stand
above them. -/
lemma ofDigits_integerDigits {b : IntegerBase} (hb : b.Valid) (c : PrintfConversion)
    (value : ℕ) :
    Nat.ofDigits b.base (((integerDigits b c value).filter (· ≠ 44)).map b.digits.idxOf) =
      value := by
  have hlt : ∀ d ∈ Nat.digits b.base value, d < b.base := fun d hd =>
    Nat.digits_lt_base hb.two_le hd
  -- the grouped digits, then zeros
  obtain ⟨z, hz⟩ : ∃ z, integerDigits b c value = insertCommas b.group c.group 0
      ((Nat.digits b.base value).map (b.digits.getD · 0)) ++ List.replicate z 48 := by
    -- the octal zero is one zero more
    simp only [integerDigits]
    split_ifs <;>
      first
      | exact ⟨_ + 1, by rw [List.append_assoc, List.replicate_succ']⟩
      | exact ⟨_, rfl⟩
  have hfilter : ((Nat.digits b.base value).map (b.digits.getD · 0)).filter (· ≠ 44) =
      (Nat.digits b.base value).map (b.digits.getD · 0) :=
    List.filter_eq_self.mpr fun x hx => by
      obtain ⟨d, hd, rfl⟩ := List.mem_map.mp hx
      simpa using hb.digit_ne_comma d (hlt d hd)
  have hidx : ((Nat.digits b.base value).map (b.digits.getD · 0)).map b.digits.idxOf =
      Nat.digits b.base value := by
    rw [List.map_map]
    conv_rhs => rw [← List.map_id (Nat.digits b.base value)]
    exact List.map_congr_left fun d hd => hb.idxOf_digit d (hlt d hd)
  have hzeros : (List.replicate z (48 : UInt8)).filter (· ≠ 44) = List.replicate z 48 :=
    List.filter_eq_self.mpr fun x hx => by simp [List.eq_of_mem_replicate hx]
  rw [hz, List.filter_append, filter_insertCommas, hfilter, hzeros, List.map_append, hidx,
    List.map_replicate, hb.idxOf_zero, Nat.ofDigits_append_replicate_zero, Nat.ofDigits_digits]

/-- `x` of `format_integer` is nonzero exactly for the prefix of `integerHead`. -/
lemma xChar_ne_zero_iff {b : IntegerBase} (hb : b.Valid) (value : ℕ) (c : PrintfConversion) :
    (if c.pound ∧ value ≠ 0 then b.x else 0) ≠ 0 ↔ c.pound ∧ value ≠ 0 ∧ b.base = 16 := by
  by_cases h : c.pound ∧ value ≠ 0
  · rw [if_pos h, hb.x_ne_zero]
    tauto
  · rw [if_neg h]
    simp only [ne_eq, not_true_eq_false, false_iff]
    tauto

/-- The sign and the `x` of `format_integer`, output one after the other, are `integerHead`. -/
lemma signChar_xChar_eq_integerHead {b : IntegerBase} (hb : b.Valid) (value : ℕ)
    (isSigned negative : Bool) (c : PrintfConversion) :
    (if signChar isSigned negative c ≠ 0 then [signChar isSigned negative c] else []) ++
        (if (if c.pound ∧ value ≠ 0 then b.x else 0) ≠ 0 then
          [48, if c.pound ∧ value ≠ 0 then b.x else 0] else []) =
      integerHead isSigned negative b c value := by
  by_cases hpre : c.pound ∧ value ≠ 0 ∧ b.base = 16
  · have hx0 : b.x ≠ 0 := hb.x_ne_zero.mpr hpre.2.2
    simp [integerHead, hpre, hx0]
  · have hx : ¬(if c.pound ∧ value ≠ 0 then b.x else 0) ≠ 0 := fun h =>
      hpre ((xChar_ne_zero_iff hb value c).mp h)
    simp [integerHead, hpre, hx]

/-- The length of `integerHead` is what `format_integer` takes off the width: two for `x`, one
for the sign. -/
lemma integerHead_length {b : IntegerBase} (hb : b.Valid) (value : ℕ) (isSigned negative : Bool)
    (c : PrintfConversion) :
    ((integerHead isSigned negative b c value).length : ℤ) =
      (if (if c.pound ∧ value ≠ 0 then b.x else 0) ≠ 0 then 2 else 0) +
        (if signChar isSigned negative c ≠ 0 then 1 else 0) := by
  rw [if_congr (xChar_ne_zero_iff hb value c) rfl rfl]
  by_cases hpre : c.pound ∧ value ≠ 0 ∧ b.base = 16 <;>
    by_cases hs : signChar isSigned negative c = 0 <;> simp [integerHead, hpre, hs]

/-- Where the flags put the padding: spaces in front without `-` or `0`, zeros after the head
with `0`, spaces at the end with `-`. -/
lemma padPlacement (minus zero : Bool) (n : ℕ) (head body : List UInt8) :
    (if (!(minus || zero)) = true then outputDup 32 n else []) ++ head ++
        (if zero = true then outputDup 48 n else []) ++ body ++
        (if minus = true then outputDup 32 n else []) =
      outputDup 32 (if minus || zero then 0 else n) ++ head ++
        outputDup 48 (if zero then n else 0) ++ body ++ outputDup 32 (if minus then n else 0) := by
  cases minus <;> cases zero <;> simp [outputDup]

/-- `format_integer` outputs the padding, the head, the zeros of the `0` flag, `buf` reversed
and the padding, each padding where its flag puts it. -/
lemma formatInteger_eq {b : IntegerBase} (hb : b.Valid) (value : ℕ) (isSigned negative : Bool)
    (c : PrintfConversion) :
    formatInteger value isSigned negative b c =
      let head := integerHead isSigned negative b c value
      let pad := integerPad c.width (head.length + (integerDigits b c value).length)
      outputDup 32 (if c.minus || c.zero then 0 else pad) ++ head ++
        outputDup 48 (if c.zero then pad else 0) ++ (integerDigits b c value).reverse ++
        outputDup 32 (if c.minus then pad else 0) := by
  -- the sign and `x`, output one after the other, are `integerHead`
  have hhead : ∀ A : List UInt8, A ++
      (if signChar isSigned negative c ≠ 0 then [signChar isSigned negative c] else []) ++
      (if (if c.pound ∧ value ≠ 0 then b.x else 0) ≠ 0 then
        [48, if c.pound ∧ value ≠ 0 then b.x else 0] else []) =
      A ++ integerHead isSigned negative b c value := fun A => by
    rw [List.append_assoc, signChar_xChar_eq_integerHead hb]
  -- `pad_cnt`, clamped at `0`, is `integerPad` around the head and `buf`
  have hpad : ∀ len : ℕ,
      (if toSigned 32 (c.width - len - (if (if c.pound ∧ value ≠ 0 then b.x else 0) ≠ 0 then 2
          else 0) - (if signChar isSigned negative c ≠ 0 then 1 else 0)) < 0 then 0
        else (toSigned 32 (c.width - len - (if (if c.pound ∧ value ≠ 0 then b.x else 0) ≠ 0
          then 2 else 0) - (if signChar isSigned negative c ≠ 0 then 1 else 0))).toNat) =
      integerPad c.width ((integerHead isSigned negative b c value).length + len) := fun len => by
    have htoNat : ∀ t : ℤ, (if t < 0 then 0 else t.toNat) = t.toNat := fun t => by
      split_ifs <;> omega
    rw [htoNat, integerPad, Nat.cast_add, integerHead_length hb]
    congr 2
    ring
  simp only [formatInteger, formatBuf_eq hb, hhead, hpad]
  exact padPlacement c.minus c.zero _ _ _

/-- **What `format_integer` emits**, for every value, base of `__vprintf` and conversion: the
sign and the `0x` prefix (`integerHead`), then `buf` from its last character: the digits of the
value in the base with a comma between every group of `b.group` of them under `'`, and zeros up
to the precision, but only while `buf` holds fewer than 63 characters (`integerDigits`); read in
the base without its commas, `buf` is the value. The padding to the field width stands in
front, after the head or at the end as the flags say, and twice, as zeros after the head and as
spaces at the end, when both `0` and `-` stand. -/
theorem format_integer_spells (value : ℕ) (isSigned negative : Bool) {b : IntegerBase}
    (hb : b ∈ integerBases) (c : PrintfConversion) :
    let head := integerHead isSigned negative b c value
    let buf := integerDigits b c value
    let pad := integerPad c.width (head.length + buf.length)
    formatInteger value isSigned negative b c =
        outputDup 32 (if c.minus || c.zero then 0 else pad) ++ head ++
          outputDup 48 (if c.zero then pad else 0) ++ buf.reverse ++
          outputDup 32 (if c.minus then pad else 0) ∧
      (formatInteger value isSigned negative b c).length =
        head.length + buf.length + (if c.minus && c.zero then 2 * pad else pad) ∧
      Nat.ofDigits b.base ((buf.filter (· ≠ 44)).map b.digits.idxOf) = value := by
  have hvalid := valid_of_mem_integerBases hb
  have hlayout := formatInteger_eq hvalid value isSigned negative c
  dsimp only at hlayout ⊢
  refine ⟨hlayout, ?_, ofDigits_integerDigits hvalid c value⟩
  rw [hlayout]
  -- the padding is output once, or twice when both flags stand
  rcases hm : c.minus <;> rcases hz : c.zero <;> simp [outputDup] <;> omega

/-- `%0*d` with the width argument `-5`, as `parse_conversion` leaves it: `-` set by the negative
width after `0` was checked against `-`. -/
def zeroMinusConv : PrintfConversion := ⟨true, false, false, false, true, false, 5, -1, .int⟩

theorem format_integer_pads_twice :
    parseConversion (bytes "0*d") [.int (-5), .int 1] =
        some (zeroMinusConv, bytes "d", [.int 1]) ∧
      (formatInteger 1 true false baseD zeroMinusConv).length = 9 := by
  refine ⟨by decide, ?_⟩
  obtain ⟨-, hlen, -⟩ := format_integer_spells 1 true false (b := baseD) (by decide) zeroMinusConv
  rw [hlen]
  -- no head, the one digit `1`, and four characters of padding, twice
  simp [integerHead, integerDigits, integerPad, signChar, zeroMinusConv, insertCommas, baseD,
    toSigned]

end Libc

end TinyOs
