import TinyOs.Basic
import Mathlib.Logic.Equiv.Basic

/-!
The pseudo-random number generator, `lib/random.c`: RC4. The state is the array `s[256]` of
bytes and the two indexes `s_i` and `s_j`, all `uint8_t`, so that their sums wrap at `256`.
`random_init` sets `s` to the identity and stirs it with the seed's bytes by 256 swaps;
`random_bytes`, which first does `random_init (0)` if no seed was set, draws each byte by one
more swap. The array is modelled as a function of the index, and `swap_byte` as the two writes
it makes.

* `swapByte_eq_comp`: `swap_byte` permutes the array by the transposition of its indexes;
* `random_state_perm`: over every run of calls, once the generator is initialised `s` is a
  permutation of the bytes, which is what RC4 needs of it.
-/

namespace TinyOs

namespace Libc

/-- `swap_byte (s + a, s + b)`: `t = s[a]; s[a] = s[b]; s[b] = t;`. -/
def swapByte (s : UInt8 → UInt8) (a b : UInt8) : UInt8 → UInt8 :=
  Function.update (Function.update s a (s b)) b (s a)

/-- The RC4 state, `s`, `s_i` and `s_j`, and `inited`. -/
structure Rc4 where
  s : UInt8 → UInt8
  si : UInt8
  sj : UInt8
  inited : Bool

/-- `seedp[k]`: byte `k` of the seed, little-endian as on the 80x86. -/
def seedByte (seed : UInt32) (k : ℕ) : UInt8 := UInt8.ofNat (seed.toNat / 2 ^ (8 * k))

/-- A round of the stirring loop of `random_init`: `j += s[i] + seedp[i % sizeof seed]`, then
`swap_byte (s + i, s + j)`; the state is the array and `j`. -/
def initStep (seed : UInt32) (st : (UInt8 → UInt8) × UInt8) (i : ℕ) : (UInt8 → UInt8) × UInt8 :=
  (swapByte st.1 (UInt8.ofNat i) (st.2 + st.1 (UInt8.ofNat i) + seedByte seed (i % 4)),
    st.2 + st.1 (UInt8.ofNat i) + seedByte seed (i % 4))

/-- `random_init (seed)`: `s` the identity, stirred by the rounds for `i` from `0` to `255`,
then `s_i = s_j = 0` and `inited`. -/
def randomInit (seed : UInt32) : Rc4 :=
  ⟨((List.range 256).foldl (initStep seed) (id, 0)).1, 0, 0, true⟩

/-- A round of the loop of `random_bytes`: `s_i++`, `s_j += s[s_i]`, the swap of `s[s_i]` and
`s[s_j]`, and the byte `s[s_k]` with `s_k = s[s_i] + s[s_j]`. -/
def prgaStep (r : Rc4) : UInt8 × Rc4 :=
  (swapByte r.s (r.si + 1) (r.sj + r.s (r.si + 1))
      (swapByte r.s (r.si + 1) (r.sj + r.s (r.si + 1)) (r.si + 1) +
        swapByte r.s (r.si + 1) (r.sj + r.s (r.si + 1)) (r.sj + r.s (r.si + 1))),
    { r with
      s := swapByte r.s (r.si + 1) (r.sj + r.s (r.si + 1))
      si := r.si + 1
      sj := r.sj + r.s (r.si + 1) })

/-- The loop of `random_bytes` over `size` bytes: the bytes written to `buf`, in order. -/
def bytesLoop : ℕ → Rc4 → List UInt8 × Rc4
  | 0, r => ([], r)
  | n + 1, r => Prod.map ((prgaStep r).1 :: ·) id (bytesLoop n (prgaStep r).2)

/-- `random_bytes (buf, size)`: `random_init (0)` if no seed was set, then the loop. -/
def randomBytes (r : Rc4) (size : ℕ) : List UInt8 × Rc4 :=
  bytesLoop size (if r.inited then r else randomInit 0)

/-- `random_ulong ()`: the four bytes `random_bytes` writes into an `unsigned long`, read
little-endian. -/
def randomUlong (r : Rc4) : ℕ × Rc4 :=
  Prod.map (fun bs => bs.foldr (fun b acc => b.toNat + 256 * acc) 0) id (randomBytes r 4)

/-- A call of the generator. -/
inductive RandomCall
  | init (seed : UInt32)
  | bytes (size : ℕ)
  | ulong

/-- The state after a call. -/
def Rc4.call (r : Rc4) : RandomCall → Rc4
  | .init seed => randomInit seed
  | .bytes size => (randomBytes r size).2
  | .ulong => (randomUlong r).2

/-- The generator at boot: static storage, zero, not initialised. -/
def rc4Boot : Rc4 := ⟨fun _ => 0, 0, 0, false⟩

/-! ### The state stays a permutation -/

/-- `swap_byte` permutes the array by the transposition of its two indexes. -/
lemma swapByte_eq_comp (s : UInt8 → UInt8) (a b : UInt8) :
    swapByte s a b = s ∘ Equiv.swap a b := by
  funext x
  simp only [swapByte, Function.comp_apply]
  by_cases hxb : x = b
  · subst hxb
    simp
  · by_cases hxa : x = a
    · subst hxa
      simp [hxb, Equiv.swap_apply_left]
    · simp [hxa, hxb, Equiv.swap_apply_of_ne_of_ne hxa hxb]

lemma bijective_swapByte {s : UInt8 → UInt8} (h : Function.Bijective s) (a b : UInt8) :
    Function.Bijective (swapByte s a b) := by
  rw [swapByte_eq_comp]
  exact h.comp (Equiv.swap a b).bijective

/-- The stirring loop keeps the array a permutation. The induction is on the rounds. -/
lemma initLoop_bijective (seed : UInt32) :
    ∀ (is : List ℕ) (st : (UInt8 → UInt8) × UInt8), Function.Bijective st.1 →
      Function.Bijective (is.foldl (initStep seed) st).1
  | [], _, h => h
  | _ :: is, _, h => initLoop_bijective seed is _ (bijective_swapByte h _ _)

lemma randomInit_bijective (seed : UInt32) : Function.Bijective (randomInit seed).s :=
  initLoop_bijective seed _ _ Function.bijective_id

lemma prgaStep_bijective {r : Rc4} (h : Function.Bijective r.s) :
    Function.Bijective (prgaStep r).2.s :=
  bijective_swapByte h _ _

/-- The loop of `random_bytes` keeps the array a permutation. -/
lemma bytesLoop_bijective :
    ∀ (n : ℕ) {r : Rc4}, Function.Bijective r.s → Function.Bijective (bytesLoop n r).2.s
  | 0, _, h => h
  | n + 1, _, h => bytesLoop_bijective n (prgaStep_bijective h)

/-- Once initialised, a state whose array is a permutation stays so through any call. -/
lemma Rc4.call_bijective {r : Rc4} (h : r.inited = true → Function.Bijective r.s)
    (c : RandomCall) : (r.call c).inited = true → Function.Bijective (r.call c).s := by
  -- `random_bytes` initialises the generator first when no seed was set
  have hbytes : ∀ n, Function.Bijective (randomBytes r n).2.s := fun n => by
    unfold randomBytes
    split_ifs with hi
    · exact bytesLoop_bijective n (h hi)
    · exact bytesLoop_bijective n (randomInit_bijective 0)
  intro _
  cases c with
  | init seed => exact randomInit_bijective seed
  | bytes size => exact hbytes size
  | ulong => exact hbytes 4

/-- **The RC4 state stays a permutation.** After any run of calls from boot, once the generator
is initialised, `s` is a permutation of the 256 byte values. The induction is on the run. -/
theorem random_state_perm (cs : List RandomCall) :
    (cs.foldl Rc4.call rc4Boot).inited = true → Function.Bijective (cs.foldl Rc4.call rc4Boot).s := by
  suffices ∀ (cs : List RandomCall) (r : Rc4), (r.inited = true → Function.Bijective r.s) →
      (cs.foldl Rc4.call r).inited = true → Function.Bijective (cs.foldl Rc4.call r).s from
    this cs rc4Boot fun h => absurd h (by decide)
  intro cs
  induction cs with
  | nil => exact fun _ h => h
  | cons c cs ih => exact fun r h => ih (r.call c) (Rc4.call_bijective h c)

/-- Three bytes drawn before any seed is set, then a reseed and a `random_ulong`. -/
theorem random_state_perm_unseeded :
    (([.bytes 3, .init 7, .ulong] : List RandomCall).foldl Rc4.call rc4Boot).inited = true ∧
      Function.Bijective (([.bytes 3, .init 7, .ulong] : List RandomCall).foldl Rc4.call rc4Boot).s :=
  ⟨rfl, random_state_perm _ rfl⟩

end Libc

end TinyOs
