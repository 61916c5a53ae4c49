import TinyOs.Libc.Stdio
import TinyOs.Libc.Stdlib

/-!
The kernel command line, `threads/init.c`. The loader leaves the words of the command line in
the `LOADER_ARGS_LEN` bytes at `LOADER_ARGS`, each ended by a NUL, and their number at
`LOADER_ARG_CNT`. `read_command_line` collects the words' addresses into `argv`. `parse_options`
takes the words that start with `-` as options: `strtok_r` cuts each at its first `=` into a name
and a value, and the name is compared with the known options. `run_actions`, once the kernel has
booted, runs the actions the remaining words name, each with the words it takes.

The memory is `ℕ → UInt8`, as for `lib/string.c`, and `argc` is the word the loader stored. How
the handling stops is a `Stop`: the help text and power-off of `-h`, a `PANIC` with its format
and arguments, or a fault. The kernel is built with `FILESYS` and `USERPROG`.

* `BootOpt`, `BootOpt.apply`: the options as `usage` documents them, and what each does;
* `boot_command_line_round_trip`: a command line of options and actions laid out by the loader
  gives the kernel back the effect of those options and those actions with their words;
* `read_command_line_finds_words`: `read_command_line` returns the address of every word the
  loader laid out, and `argv` holds them when no word is empty; 65 empty words fit in the
  command line, and `argv[65]` is then stored past the end of its 65 entries;
* `run_actions_stops`: after the actions before it have run, a word that names no action, or
  an action short of words, stops the kernel with a `PANIC` that names the word.
-/

namespace TinyOs

open Libc

/-! ### Strings in memory -/

/-- `LOADER_ARGS_LEN`: the bytes the loader leaves for the command line. -/
def loaderArgsLen : ℕ := 128

/-- The entries of `read_command_line`'s `argv`, `LOADER_ARGS_LEN / 2 + 1`. -/
def argvLen : ℕ := loaderArgsLen / 2 + 1

/-- The loops over a string run at most over the address space. -/
def strFuel : ℕ := 2 ^ 32

/-- `strnlen (string, maxlen)` over memory: the bytes before the first NUL, at most `maxlen`. -/
def strnlenAt (mem : ℕ → UInt8) (p : ℕ) : ℕ → ℕ
  | 0 => 0
  | maxlen + 1 => if mem p = 0 then 0 else strnlenAt mem (p + 1) maxlen + 1

/-- The bytes of the string at `p`, before its NUL, when the NUL is within `fuel` bytes. -/
def readStr (mem : ℕ → UInt8) : ℕ → ℕ → Option (List UInt8)
  | 0, _ => none
  | fuel + 1, p => if mem p = 0 then some [] else (readStr mem fuel (p + 1)).map (mem p :: ·)

/-- `strcmp (a, b)` on the bytes of two strings before their NULs: the loop steps while `*a` is
not NUL and equals `*b`, and then `*a < *b ? -1 : *a > *b`. -/
def strcmp : List UInt8 → List UInt8 → ℤ
  | [], [] => 0
  | [], _ :: _ => -1
  | _ :: _, [] => 1
  | a :: as, b :: bs => if a = b then strcmp as bs else if a < b then -1 else 1

/-! ### How the handling of the command line stops -/

/-- How the kernel stops while it handles its command line. -/
inductive Stop
  /-- `usage ()`: the help text, then `power_off ()`. -/
  | usage
  /-- `PANIC (format, ...)`. -/
  | panic (format : List UInt8) (args : List VaArg)
  /-- A failed assertion of a function called, or what C leaves undefined: `atoi (NULL)`, an
  `int` overflow in `atoi`, a string with no NUL. -/
  | fault
  deriving DecidableEq

/-- A result of a called model, its `none` a fault. -/
def orFault {α : Type} : Option α → Except Stop α
  | some a => .ok a
  | none => .error .fault

/-! ### `read_command_line` -/

/-- The loop of `read_command_line` over `argc` words from `p`, the command line ending at
`endPtr`: `argv[i] = p` and `p += strnlen (p, end - p) + 1`, once `p` is checked to be before
the end. -/
def readArgs (mem : ℕ → UInt8) (endPtr : ℕ) : ℕ → ℕ → Except Stop (List ℕ)
  | 0, _ => .ok []
  | argc + 1, p =>
    if p ≥ endPtr then .error (.panic (bytes "command line arguments overflow") [])
    else (readArgs mem endPtr argc (p + strnlenAt mem p (endPtr - p) + 1)).map (p :: ·)

/-- `read_command_line ()`, the words at `args`, `ptov (LOADER_ARGS)`, and `argc` the word at
`LOADER_ARG_CNT`: `argv[0]` to `argv[argc - 1]`. -/
def readCommandLine (mem : ℕ → UInt8) (args argc : ℕ) : Except Stop (List ℕ) :=
  readArgs mem (args + loaderArgsLen) argc args

/-- The words as the loader lays them out: each followed by its NUL. -/
def joinWords (ws : List (List UInt8)) : List UInt8 := ws.flatMap (· ++ [0])

/-- Where the words laid out from `p` start. -/
def wordStarts : ℕ → List (List UInt8) → List ℕ
  | _, [] => []
  | p, w :: ws => p :: wordStarts (p + w.length + 1) ws

/-! ### `parse_options` -/

/-- What `parse_options` sets: `power_off_when_done`, `format_filesys`, the seed given to
`random_init`, `thread_mlfqs` and `user_page_limit`. -/
structure BootOptions where
  powerOffWhenDone : Bool
  formatFilesys : Bool
  randomSeed : Option UInt32
  threadMlfqs : Bool
  userPageLimit : ℕ
  deriving DecidableEq

/-- The options at boot: zero, as the BSS is, and `user_page_limit = SIZE_MAX`. -/
def bootOptions : BootOptions := ⟨false, false, none, false, 2 ^ 32 - 1⟩

/-- `atoi (value)`: a NULL `value` is dereferenced. -/
def atoiValue (value : Option (List UInt8)) : Except Stop ℤ := orFault (value.bind atoi)

/-- The test of a name against the known options in `parse_options`, with `FILESYS` and
`USERPROG` defined. `random_init` takes an `unsigned`, and `user_page_limit` is a `size_t`. -/
def parseOption (opts : BootOptions) (name : List UInt8) (value : Option (List UInt8)) :
    Except Stop BootOptions :=
  if strcmp name (bytes "-h") = 0 then .error .usage
  else if strcmp name (bytes "-q") = 0 then .ok { opts with powerOffWhenDone := true }
  else if strcmp name (bytes "-f") = 0 then .ok { opts with formatFilesys := true }
  else if strcmp name (bytes "-rs") = 0 then
    (atoiValue value).map fun seed => { opts with randomSeed := some (UInt32.ofNat (toUnsigned 32 seed)) }
  else if strcmp name (bytes "-mlfqs") = 0 then .ok { opts with threadMlfqs := true }
  else if strcmp name (bytes "-ul") = 0 then
    (atoiValue value).map fun count => { opts with userPageLimit := toUnsigned 32 count }
  else .error (.panic (bytes "unknown option \x60%s\x27 (use -h for help)") [.str (some name)])

/-- The body of `parse_options`' loop for the word at `p`: `name = strtok_r (*argv, "=",
&save_ptr)`, `value = strtok_r (NULL, "", &save_ptr)`, the test of the name, and the memory the
calls leave. `strcmp` asserts that `name` is not NULL. -/
def parseOptionAt (mem : ℕ → UInt8) (opts : BootOptions) (p : ℕ) :
    Except Stop (BootOptions × (ℕ → UInt8)) := do
  let first ← orFault (strtokR mem (bytes "=") (some p) 0 strFuel)
  let second ← orFault (strtokR first.2.1 [] none first.2.2 strFuel)
  let mem := second.2.1
  let name ← orFault (first.1.bind (readStr mem strFuel))
  let value ← match second.1 with
    | none => pure none
    | some q => (orFault (readStr mem strFuel q)).map some
  let opts ← parseOption opts name value
  pure (opts, mem)

/-- `parse_options (argv)`: the options of the words from the first, while they start with `-`,
the memory, and the rest of `argv`, which `parse_options` returns. -/
def parseOptions : (ℕ → UInt8) → BootOptions → List ℕ →
    Except Stop (BootOptions × (ℕ → UInt8) × List ℕ)
  | mem, opts, [] => .ok (opts, mem, [])
  | mem, opts, p :: argv =>
    if mem p = 45 then do
      let r ← parseOptionAt mem opts p
      parseOptions r.2 r.1 argv
    else .ok (opts, mem, p :: argv)

/-! ### `run_actions` -/

/-- `struct action` without its function: its name and the words it takes, its name included. -/
structure Action where
  name : List UInt8
  argc : ℕ
  deriving DecidableEq

/-- `actions[]` with `FILESYS` defined: `run`, `ls`, `cat`, `rm`, `put` and `get`. -/
def actions : List Action :=
  [⟨bytes "run", 2⟩, ⟨bytes "ls", 1⟩, ⟨bytes "cat", 2⟩, ⟨bytes "rm", 2⟩, ⟨bytes "put", 2⟩,
    ⟨bytes "get", 2⟩]

/-- The search of `actions` for `word`: the first action whose name `strcmp` finds equal. -/
def findAction (word : List UInt8) : List Action → Option Action
  | [] => none
  | a :: as => if strcmp word a.name = 0 then some a else findAction word as

/-- `run_actions (argv)`, for at most `fuel` actions: each action found, checked for its
words, called with them, and `argv += a->argc`. The actions called, each with its words, and
how the loop stopped, `none` at the end of `argv`. An action runs before a later word stops the
loop. -/
def runActions (mem : ℕ → UInt8) : ℕ → List ℕ → List (Action × List (List UInt8)) × Option Stop
  | _, [] => ([], none)
  | 0, _ :: _ => ([], some .fault)
  | fuel + 1, p :: argv =>
    match readStr mem strFuel p with
    | none => ([], some .fault)
    | some word =>
      match findAction word actions with
      | none =>
        ([], some (.panic (bytes "unknown action \x60%s\x27 (use -h for help)") [.str (some word)]))
      | some a =>
        if argv.length + 1 < a.argc then
          ([], some (.panic (bytes "action \x60%s\x27 requires %d argument(s)")
            [.str (some word), .int ((a.argc : ℤ) - 1)]))
        else
          match ((p :: argv).take a.argc).mapM (readStr mem strFuel) with
          | none => ([], some .fault)
          | some words =>
            let rest := runActions mem fuel ((p :: argv).drop a.argc)
            ((a, words) :: rest.1, rest.2)

/-- What `main` does with the command line: `read_command_line` and `parse_options` before the
boot, and after it `run_actions` on the words left, with a loop bound each action meets. The
options, and the actions called with how `run_actions` stopped. -/
def bootCommandLine (mem : ℕ → UInt8) (args argc : ℕ) :
    Except Stop (BootOptions × List (Action × List (List UInt8)) × Option Stop) := do
  let argv ← readCommandLine mem args argc
  let r ← parseOptions mem bootOptions argv
  pure (r.1, runActions r.2.1 (r.2.2.length + 1) r.2.2)

/-! ### The command line as `usage` documents it -/

/-- An option of the command line as `usage` lists it, or a word starting with `-` that names
none of them. -/
inductive BootOpt
  | help
  | quiet
  | format
  | randomSeed (seed : List UInt8)
  | mlfqs
  | userPageLimit (count : List UInt8)
  | unknown (name : List UInt8)

/-- The word of an option on the command line. -/
def BootOpt.word : BootOpt → List UInt8
  | .help => bytes "-h"
  | .quiet => bytes "-q"
  | .format => bytes "-f"
  | .randomSeed seed => bytes "-rs=" ++ seed
  | .mlfqs => bytes "-mlfqs"
  | .userPageLimit count => bytes "-ul=" ++ count
  | .unknown name => name

/-- The names of the options `usage` lists. -/
def optionNames : List (List UInt8) :=
  [bytes "-h", bytes "-q", bytes "-f", bytes "-rs", bytes "-mlfqs", bytes "-ul"]

/-- An option the loader can pass: a value holds no NUL, and an unknown option's name starts
with `-`, holds no `=` and no NUL, and is none of the names `usage` lists. -/
def BootOpt.WellFormed : BootOpt → Prop
  | .randomSeed seed => 0 ∉ seed
  | .userPageLimit count => 0 ∉ count
  | .unknown name => name.head? = some 45 ∧ 0 ∉ name ∧ 61 ∉ name ∧ name ∉ optionNames
  | _ => True

/-- What an option does, as `usage` documents it. An empty seed or count is a NULL value, which
`atoi` dereferences; a name `usage` does not list stops the kernel with a `PANIC` that names it. -/
def BootOpt.apply (o : BootOptions) : BootOpt → Except Stop BootOptions
  | .help => .error .usage
  | .quiet => .ok { o with powerOffWhenDone := true }
  | .format => .ok { o with formatFilesys := true }
  | .randomSeed seed =>
    if seed = [] then .error .fault
    else match atoi seed with
      | some n => .ok { o with randomSeed := some (UInt32.ofNat (toUnsigned 32 n)) }
      | none => .error .fault
  | .mlfqs => .ok { o with threadMlfqs := true }
  | .userPageLimit count =>
    if count = [] then .error .fault
    else match atoi count with
      | some n => .ok { o with userPageLimit := toUnsigned 32 n }
      | none => .error .fault
  | .unknown name =>
    .error (.panic (bytes "unknown option \x60%s\x27 (use -h for help)") [.str (some name)])

/-- A call of an action as the command line gives it: an action of `actions[]` and its words,
its name first and as many as it takes, none holding a NUL. -/
def IsCall (c : Action × List (List UInt8)) : Prop :=
  c.1 ∈ actions ∧ c.2.length = c.1.argc ∧ c.2.head? = some c.1.name ∧ ∀ w ∈ c.2, 0 ∉ w

/-! ### Strings and words -/

section Strings

variable {mem : ℕ → UInt8}

/-- `readStr` reads a string that is in memory with its NUL. The induction is on the string. -/
lemma readStr_eq : ∀ {w : List UInt8} {p fuel : ℕ}, Holds mem p (w ++ [0]) → 0 ∉ w →
    w.length < fuel → readStr mem fuel p = some w
  | _, _, 0, _, _, hfuel => absurd hfuel (Nat.not_lt_zero _)
  | [], p, fuel + 1, hmem, _, _ => by
    rw [readStr, if_pos (holds_cons.mp hmem).1]
  | x :: w, p, fuel + 1, hmem, hw, hfuel => by
    obtain ⟨hx, hmem⟩ := holds_cons.mp hmem
    have hx0 : mem p ≠ 0 := hx ▸ fun h => hw (h ▸ List.mem_cons_self)
    rw [readStr, if_neg hx0, readStr_eq hmem (fun h => hw (List.mem_cons_of_mem x h))
      (by simpa using hfuel), Option.map_some, hx]

/-- `strnlen` counts the bytes of a string in memory, when `maxlen` is more. -/
lemma strnlenAt_eq : ∀ {w : List UInt8} {p maxlen : ℕ}, Holds mem p (w ++ [0]) → 0 ∉ w →
    w.length < maxlen → strnlenAt mem p maxlen = w.length
  | _, _, 0, _, _, hlen => absurd hlen (Nat.not_lt_zero _)
  | [], p, maxlen + 1, hmem, _, _ => by
    rw [strnlenAt, if_pos (holds_cons.mp hmem).1, List.length_nil]
  | x :: w, p, maxlen + 1, hmem, hw, hlen => by
    obtain ⟨hx, hmem⟩ := holds_cons.mp hmem
    have hx0 : mem p ≠ 0 := hx ▸ fun h => hw (h ▸ List.mem_cons_self)
    rw [strnlenAt, if_neg hx0, strnlenAt_eq hmem (fun h => hw (List.mem_cons_of_mem x h))
      (by simpa using hlen), List.length_cons]

end Strings

/-- `strcmp` finds two strings equal exactly when they are. The induction is on the strings. -/
lemma strcmp_eq_zero_iff : ∀ {a b : List UInt8}, strcmp a b = 0 ↔ a = b
  | [], [] => by simp [strcmp]
  | [], _ :: _ => by simp [strcmp]
  | _ :: _, [] => by simp [strcmp]
  | x :: a, y :: b => by
    rw [strcmp, List.cons.injEq]
    by_cases hxy : x = y
    · rw [if_pos hxy, strcmp_eq_zero_iff]
      simp [hxy]
    · rw [if_neg hxy]
      split_ifs <;> simp [hxy]

lemma joinWords_cons (w : List UInt8) (ws : List (List UInt8)) :
    joinWords (w :: ws) = w ++ [0] ++ joinWords ws := by
  simp [joinWords]

lemma joinWords_append (ws ws' : List (List UInt8)) :
    joinWords (ws ++ ws') = joinWords ws ++ joinWords ws' := by
  simp [joinWords]

/-- The words laid out from `p` after `ws` start where `ws`'s layout ends. The induction is on
`ws`. -/
lemma wordStarts_append : ∀ (p : ℕ) (ws ws' : List (List UInt8)),
    wordStarts p (ws ++ ws') = wordStarts p ws ++ wordStarts (p + (joinWords ws).length) ws'
  | p, [], ws' => by simp [wordStarts, joinWords]
  | p, w :: ws, ws' => by
    rw [List.cons_append, wordStarts, wordStarts, wordStarts_append, joinWords_cons,
      List.cons_append, List.length_append, List.length_append, List.length_singleton]
    simp only [Nat.add_assoc]

lemma length_wordStarts : ∀ (p : ℕ) (ws : List (List UInt8)), (wordStarts p ws).length = ws.length
  | _, [] => rfl
  | p, w :: ws => by rw [wordStarts, List.length_cons, length_wordStarts, List.length_cons]

/-! ### `read_command_line` -/

/-- **`read_command_line` finds the words the loader laid out.** For words with no NUL, each
followed by its NUL, before the end of the command line, the loop stores the address of each.
The induction is on the words. -/
lemma readArgs_joinWords (mem : ℕ → UInt8) (endPtr : ℕ) : ∀ {ws : List (List UInt8)} {p : ℕ},
    Holds mem p (joinWords ws) → (∀ w ∈ ws, 0 ∉ w) → p + (joinWords ws).length ≤ endPtr →
    readArgs mem endPtr ws.length p = .ok (wordStarts p ws)
  | [], p, _, _, _ => rfl
  | w :: ws, p, hmem, hws, hend => by
    rw [joinWords_cons] at hmem hend
    obtain ⟨hnul, hrest⟩ := holds_append.mp hmem
    have hw0 : 0 ∉ w := hws w List.mem_cons_self
    have hwlen : (w ++ [0]).length = w.length + 1 := by simp
    simp only [List.length_append, hwlen] at hend
    have hrest' : Holds mem (p + w.length + 1) (joinWords ws) := by
      simpa [hwlen, Nat.add_assoc] using hrest
    rw [List.length_cons, readArgs, if_neg (by omega), strnlenAt_eq hnul hw0 (by omega),
      readArgs_joinWords mem endPtr hrest' (fun w' hw' => hws w' (List.mem_cons_of_mem w hw'))
        (by omega)]
    rfl

/-- Words none of which is empty take two bytes each at least. The induction is on the words. -/
lemma two_mul_le_length_joinWords :
    ∀ {ws : List (List UInt8)}, (∀ w ∈ ws, w ≠ []) → 2 * ws.length ≤ (joinWords ws).length
  | [], _ => by simp [joinWords]
  | w :: ws, h => by
    have hw : 0 < w.length := List.length_pos_iff.mpr (h w List.mem_cons_self)
    have ih := two_mul_le_length_joinWords fun w' hw' => h w' (List.mem_cons_of_mem w hw')
    rw [joinWords_cons, List.length_append, List.length_append, List.length_singleton,
      List.length_cons]
    omega

/-- **`read_command_line` finds the words; `argv` holds them when none is empty.** For words
with no NUL that the loader laid out in the command line's `LOADER_ARGS_LEN` bytes, each
followed by its NUL, `read_command_line` returns the address of each. When no word is empty,
each takes two bytes or more, so there are fewer than `LOADER_ARGS_LEN / 2 + 1` and
`argv[argc] = NULL` lands inside `argv`. -/
theorem read_command_line_finds_words {mem : ℕ → UInt8} {args : ℕ} {ws : List (List UInt8)}
    (hmem : Holds mem args (joinWords ws)) (hws : ∀ w ∈ ws, 0 ∉ w)
    (hlen : (joinWords ws).length ≤ loaderArgsLen) :
    readCommandLine mem args ws.length = .ok (wordStarts args ws) ∧
      ((∀ w ∈ ws, w ≠ []) → ws.length < argvLen) := by
  refine ⟨readArgs_joinWords mem _ hmem hws (by omega), fun hne => ?_⟩
  have htwo := two_mul_le_length_joinWords hne
  simp only [argvLen, loaderArgsLen] at hlen ⊢
  omega

/-- Sixty-five empty words fit in the command line's 128 bytes: `read_command_line` takes all of
them, and `argv[65] = NULL` is stored past the 65 entries of `argv`. -/
theorem read_command_line_finds_words_empty :
    Holds (fun _ => 0) 1000 (joinWords (List.replicate 65 [])) ∧
      (∀ w ∈ List.replicate 65 ([] : List UInt8), 0 ∉ w) ∧
      (joinWords (List.replicate 65 [])).length ≤ loaderArgsLen ∧
      (readCommandLine (fun _ => 0) 1000 (List.replicate 65 ([] : List UInt8)).length =
          .ok (wordStarts 1000 (List.replicate 65 [])) ∧
        ((∀ w ∈ List.replicate 65 ([] : List UInt8), w ≠ []) →
          (List.replicate 65 ([] : List UInt8)).length < argvLen)) := by
  have hmem : Holds (fun _ => 0) 1000 (joinWords (List.replicate 65 [])) := by
    unfold Holds
    decide
  have hws : ∀ w ∈ List.replicate 65 ([] : List UInt8), 0 ∉ w := by simp
  have hlen : (joinWords (List.replicate 65 ([] : List UInt8))).length ≤ loaderArgsLen := by decide
  exact ⟨hmem, hws, hlen, read_command_line_finds_words hmem hws hlen⟩

/-! ### `parse_options` -/

section Options

variable {mem : ℕ → UInt8} {p : ℕ}

/-- On a word with no `=`, `strtok_r` returns the whole word as the name and NULL as the value,
and writes nothing. -/
lemma parseOptionAt_of_plain {w : List UInt8} (hw : w ≠ []) (hw0 : 0 ∉ w) (hw61 : 61 ∉ w)
    (hp : p ≠ 0) (hmem : Holds mem p (w ++ [0])) (hlen : w.length < strFuel) (opts : BootOptions) :
    parseOptionAt mem opts p = (parseOption opts w none).map fun o => (o, mem) := by
  have hD : bytes "=" = [61] := rfl
  have hwD : ∀ x ∈ w, x ∉ [61] ∧ x ≠ 0 := fun x hx =>
    ⟨fun h => hw61 (List.mem_singleton.mp h ▸ hx), fun h => hw0 (h ▸ hx)⟩
  have hfirst : strtokR mem (bytes "=") (some p) 0 strFuel = some (some p, mem, p + w.length) := by
    rw [hD]
    simpa using strtokR_of_last_token (δ := []) (by decide) (show (some p).getD 0 = p from rfl) hp
      (by simp) hw hwD (by simpa using hmem) (by simpa using hlen)
  have hsecond : strtokR mem [] none (p + w.length) strFuel = some (none, mem, p + w.length) := by
    simpa using strtokR_of_delimiters (δ := []) List.not_mem_nil
      (show (none : Option ℕ).getD (p + w.length) = p + w.length from rfl) (by omega)
      (by simp) (by simpa using (holds_append.mp hmem).2) (by decide)
  have hname : readStr mem strFuel p = some w := readStr_eq hmem hw0 hlen
  simp [parseOptionAt, hfirst, hsecond, orFault, hname, bind, Except.bind, pure, Except.pure,
    Except.map]

/-- On a word `n=v`, `strtok_r` returns `n` as the name, having written its NUL over the `=`, and
`v` as the value, NULL when `v` is empty. -/
lemma parseOptionAt_of_value {n v : List UInt8} (hn : n ≠ []) (hn0 : 0 ∉ n) (hn61 : 61 ∉ n)
    (hv0 : 0 ∉ v) (hp : p ≠ 0) (hmem : Holds mem p (n ++ [61] ++ v ++ [0]))
    (hlen : n.length + 1 + v.length < strFuel) (opts : BootOptions) :
    parseOptionAt mem opts p = (parseOption opts n (if v = [] then none else some v)).map
      fun o => (o, Function.update mem (p + n.length) 0) := by
  have hD : bytes "=" = [61] := rfl
  have hnD : ∀ x ∈ n, x ∉ [61] ∧ x ≠ 0 := fun x hx =>
    ⟨fun h => hn61 (List.mem_singleton.mp h ▸ hx), fun h => hn0 (h ▸ hx)⟩
  rw [List.append_assoc] at hmem
  obtain ⟨hname, hvalue⟩ := holds_append.mp hmem
  have hfirst : strtokR mem (bytes "=") (some p) 0 strFuel =
      some (some p, Function.update mem (p + n.length) 0, p + n.length + 1) := by
    rw [hD]
    simpa using strtokR_of_token (δ := []) (by decide) (show (some p).getD 0 = p from rfl) hp
      (by simp) hn hnD (List.mem_singleton_self 61) (by simpa using hname)
      (by simpa using (show n.length < strFuel by omega))
  -- the `=` became the name's NUL; the value after it is untouched
  have hname' : readStr (Function.update mem (p + n.length) 0) strFuel p = some n :=
    readStr_eq (Holds.update_end hname) hn0 (by omega)
  have hvalue' : Holds (Function.update mem (p + n.length) 0) (p + n.length + 1) (v ++ [0]) := by
    have h : Holds mem (p + n.length + 1) (v ++ [0]) := by simpa [Nat.add_assoc] using hvalue
    exact h.congr fun k hk _ => Function.update_of_ne (by omega) _ _
  by_cases hv : v = []
  · subst hv
    have hsecond : strtokR (Function.update mem (p + n.length) 0) [] none (p + n.length + 1)
        strFuel = some (none, Function.update mem (p + n.length) 0, p + n.length + 1) := by
      simpa using strtokR_of_delimiters (δ := []) List.not_mem_nil
        (show (none : Option ℕ).getD (p + n.length + 1) = p + n.length + 1 from rfl) (by omega)
        (by simp) (by simpa using hvalue') (by decide)
    simp [parseOptionAt, hfirst, hsecond, orFault, hname', bind, Except.bind, pure, Except.pure,
      Except.map]
  · have hsecond : strtokR (Function.update mem (p + n.length) 0) [] none (p + n.length + 1)
        strFuel = some (some (p + n.length + 1), Function.update mem (p + n.length) 0,
          p + n.length + 1 + v.length) := by
      simpa using strtokR_of_last_token (δ := []) List.not_mem_nil
        (show (none : Option ℕ).getD (p + n.length + 1) = p + n.length + 1 from rfl) (by omega)
        (by simp) hv (fun x hx => ⟨List.not_mem_nil, fun h => hv0 (h ▸ hx)⟩)
        (by simpa using hvalue') (by simpa using (show v.length < strFuel by omega))
    have hvalue'' : readStr (Function.update mem (p + n.length) 0) strFuel (p + n.length + 1) =
        some v := readStr_eq hvalue' hv0 (by omega)
    simp [parseOptionAt, hfirst, hsecond, orFault, hname', hvalue'', hv, bind, Except.bind, pure,
      Except.pure, Except.map]

/-- The names `usage` lists fall through to the `PANIC` when none matches. -/
lemma parseOption_of_not_mem {name : List UInt8} (h : name ∉ optionNames) (opts : BootOptions)
    (value : Option (List UInt8)) :
    parseOption opts name value =
      .error (.panic (bytes "unknown option \x60%s\x27 (use -h for help)") [.str (some name)]) := by
  simp only [optionNames, List.mem_cons, List.not_mem_nil, or_false, not_or] at h
  obtain ⟨h₁, h₂, h₃, h₄, h₅, h₆⟩ := h
  simp [parseOption, strcmp_eq_zero_iff, h₁, h₂, h₃, h₄, h₅, h₆]

lemma parseOption_rs (opts : BootOptions) (value : Option (List UInt8)) :
    parseOption opts (bytes "-rs") value = (atoiValue value).map fun seed =>
      { opts with randomSeed := some (UInt32.ofNat (toUnsigned 32 seed)) } := rfl

lemma parseOption_ul (opts : BootOptions) (value : Option (List UInt8)) :
    parseOption opts (bytes "-ul") value = (atoiValue value).map fun count =>
      { opts with userPageLimit := toUnsigned 32 count } := rfl

/-- `atoi` of a value read as an option's, NULL when it is empty, and what is set from it. -/
lemma map_atoiValue_of_value {β : Type} (v : List UInt8) (set : ℤ → β) :
    (atoiValue (if v = [] then none else some v)).map set =
      if v = [] then .error .fault else match atoi v with
        | some n => .ok (set n)
        | none => .error .fault := by
  by_cases hv : v = []
  · simp [hv, atoiValue, orFault, Except.map]
  · simp only [hv, if_false, atoiValue, Option.bind_some]
    cases atoi v <;> rfl

/-- An option with a value, `n=v`, whose test sets a field from `atoi (value)`: it sets it from
`v`, and `strtok_r` writes nothing but the NUL over the `=`. -/
lemma parseOptionAt_valued {n v : List UInt8} {set : ℤ → BootOptions} {opts : BootOptions}
    (hn : n ≠ []) (hn0 : 0 ∉ n) (hn61 : 61 ∉ n)
    (hset : ∀ value, parseOption opts n value = (atoiValue value).map set) (hv0 : 0 ∉ v)
    (hp : p ≠ 0) (hmem : Holds mem p (n ++ [61] ++ v ++ [0]))
    (hlen : (n ++ [61] ++ v).length < strFuel) :
    ∃ mem' : ℕ → UInt8, (∀ q, q < p ∨ p + (n ++ [61] ++ v).length ≤ q → mem' q = mem q) ∧
      parseOptionAt mem opts p = (if v = [] then Except.error Stop.fault else match atoi v with
        | some k => Except.ok (set k)
        | none => Except.error Stop.fault).map fun o' => (o', mem') := by
  refine ⟨Function.update mem (p + n.length) 0,
    fun q hq => Function.update_of_ne (by simp at hq ⊢; omega) _ _, ?_⟩
  rw [parseOptionAt_of_value hn hn0 hn61 hv0 hp hmem (by simp at hlen ⊢; omega), hset,
    map_atoiValue_of_value]

/-- **One option.** On the word of an option, the body of `parse_options`' loop does what the
option does, and writes only inside the word. -/
lemma parseOptionAt_word {o : BootOpt} (ho : o.WellFormed) (hp : p ≠ 0)
    (hmem : Holds mem p (o.word ++ [0])) (hlen : o.word.length < strFuel) (opts : BootOptions) :
    ∃ mem', (∀ q, q < p ∨ p + o.word.length ≤ q → mem' q = mem q) ∧
      parseOptionAt mem opts p = (o.apply opts).map fun o' => (o', mem') := by
  cases o with
  | help | quiet | format | mlfqs =>
    refine ⟨mem, fun _ _ => rfl, ?_⟩
    rw [parseOptionAt_of_plain (by decide) (by decide) (by decide) hp hmem hlen]
    rfl
  | unknown name =>
    obtain ⟨hhead, hn0, hn61, hnames⟩ := ho
    refine ⟨mem, fun _ _ => rfl, ?_⟩
    rw [parseOptionAt_of_plain (fun h => by simp [h] at hhead) hn0 hn61 hp hmem hlen,
      parseOption_of_not_mem hnames]
    rfl
  -- the two options with a value: `strtok_r` writes a NUL over the `=` after the name
  | randomSeed seed =>
    have hword : BootOpt.word (.randomSeed seed) = bytes "-rs" ++ [61] ++ seed := rfl
    rw [hword] at hmem hlen ⊢
    exact parseOptionAt_valued (by decide) (by decide) (by decide) (parseOption_rs opts) ho hp
      hmem hlen
  | userPageLimit count =>
    have hword : BootOpt.word (.userPageLimit count) = bytes "-ul" ++ [61] ++ count := rfl
    rw [hword] at hmem hlen ⊢
    exact parseOptionAt_valued (by decide) (by decide) (by decide) (parseOption_ul opts) ho hp
      hmem hlen

lemma BootOpt.word_head {o : BootOpt} (ho : o.WellFormed) : o.word.head? = some 45 := by
  cases o with
  | unknown name => exact ho.1
  | _ => rfl

/-- **The options.** On the words of options laid out from `p`, and then words that are not
options, `parse_options` does what the options do, one after the other, and returns the rest of
`argv`. It writes only inside the options' words. The induction is on the options. -/
lemma parseOptions_words {rest : List (List UInt8)} (hrest : ∀ w ∈ rest.head?, w.head? ≠ some 45) :
    ∀ {os : List BootOpt} {mem : ℕ → UInt8} {p : ℕ} (opts : BootOptions),
      (∀ o ∈ os, o.WellFormed) → 0 < p → Holds mem p (joinWords (os.map BootOpt.word ++ rest)) →
      (joinWords (os.map BootOpt.word)).length < strFuel →
      ∃ mem', (∀ q, p + (joinWords (os.map BootOpt.word)).length ≤ q → mem' q = mem q) ∧
        parseOptions mem opts (wordStarts p (os.map BootOpt.word ++ rest)) =
          (os.foldlM BootOpt.apply opts).map fun o =>
            (o, mem', wordStarts (p + (joinWords (os.map BootOpt.word)).length) rest)
  | [], mem, p, opts, _, _, hmem, _ => by
    refine ⟨mem, fun _ _ => rfl, ?_⟩
    cases rest with
    | nil => rfl
    | cons w rest =>
      -- the first word left is not an option: its first byte, or its NUL, is not `-`
      have hfirst : mem p ≠ 45 := by
        have hw := hrest w (by simp)
        rw [List.map_nil, List.nil_append, joinWords_cons, List.append_assoc] at hmem
        cases w with
        | nil => simp [(holds_cons.mp hmem).1]
        | cons x w => simpa [(holds_cons.mp hmem).1] using hw
      simp [wordStarts, parseOptions, hfirst, joinWords, pure, Except.pure, Except.map]
  | o :: os, mem, p, opts, hos, hp, hmem, hlen => by
    rw [List.map_cons, List.cons_append, joinWords_cons] at hmem
    rw [List.map_cons, joinWords_cons, List.length_append] at hlen
    obtain ⟨hword, hrestm⟩ := holds_append.mp hmem
    obtain ⟨mem₁, hframe₁, hat⟩ := parseOptionAt_word (hos o List.mem_cons_self) hp.ne'
      hword (by simp at hlen; omega) opts
    have hdash : mem p = 45 := by
      obtain ⟨x, w, hxw⟩ := List.exists_cons_of_ne_nil
        (show o.word ≠ [] from fun h => by simpa [h] using BootOpt.word_head (hos o List.mem_cons_self))
      have hx : x = 45 := by simpa [hxw] using BootOpt.word_head (hos o List.mem_cons_self)
      rw [hxw, List.cons_append] at hword
      rw [(holds_cons.mp hword).1, hx]
    rw [List.map_cons, List.cons_append, wordStarts, parseOptions, if_pos hdash, hat,
      List.foldlM_cons]
    cases happ : o.apply opts with
    | error e =>
      exact ⟨mem, fun _ _ => rfl, by simp [Except.map, bind, Except.bind]⟩
    | ok o₁ =>
      -- the rest of the words is where it was: the option wrote only inside its word
      have hrest₁ : Holds mem₁ (p + o.word.length + 1) (joinWords (os.map BootOpt.word ++ rest)) := by
        have h : Holds mem (p + o.word.length + 1) (joinWords (os.map BootOpt.word ++ rest)) := by
          simpa [Nat.add_assoc] using hrestm
        exact h.congr fun k hk _ => hframe₁ k (.inr (by omega))
      obtain ⟨mem', hframe', hrun⟩ := parseOptions_words hrest o₁
        (fun o' ho' => hos o' (List.mem_cons_of_mem o ho')) (by omega) hrest₁
        (by simp at hlen ⊢; omega)
      refine ⟨mem', fun q hq => ?_, ?_⟩
      · rw [joinWords_cons, List.length_append, List.length_append, List.length_singleton] at hq
        rw [hframe' q (by omega), hframe₁ q (.inr (by omega))]
      · simp only [Except.map, bind, Except.bind]
        rw [hrun, joinWords_cons, List.length_append, List.length_append, List.length_singleton]
        cases os.foldlM BootOpt.apply o₁ <;> simp [Except.map, Nat.add_assoc]

end Options

/-! ### `run_actions` -/

/-- `read` finds the words laid out from `p`. The induction is on the words. -/
lemma mapM_readStr_wordStarts {mem : ℕ → UInt8} : ∀ {ws : List (List UInt8)} {p : ℕ},
    Holds mem p (joinWords ws) → (∀ w ∈ ws, 0 ∉ w) → (joinWords ws).length < strFuel →
    (wordStarts p ws).mapM (readStr mem strFuel) = some ws
  | [], _, _, _, _ => rfl
  | w :: ws, p, hmem, hws, hlen => by
    rw [joinWords_cons] at hmem hlen
    rw [List.length_append] at hlen
    obtain ⟨hw, hrest⟩ := holds_append.mp hmem
    have hwlen : (w ++ [0]).length = w.length + 1 := by simp
    rw [hwlen] at hrest hlen
    rw [wordStarts, List.mapM_cons, readStr_eq hw (hws w List.mem_cons_self) (by omega),
      mapM_readStr_wordStarts (by simpa [Nat.add_assoc] using hrest)
        (fun w' hw' => hws w' (List.mem_cons_of_mem w hw')) (by omega)]
    rfl

/-- Each action of `actions[]` is the one its name finds. -/
lemma findAction_name {a : Action} (ha : a ∈ actions) : findAction a.name actions = some a := by
  simp only [actions, List.mem_cons, List.not_mem_nil, or_false] at ha
  rcases ha with rfl | rfl | rfl | rfl | rfl | rfl <;> rfl

/-- **One action.** At the words of a call, `run_actions` finds the action, calls it with them,
and goes on after them. -/
lemma runActions_of_call {c : Action × List (List UInt8)} (hc : IsCall c) {mem : ℕ → UInt8}
    {q : ℕ} (hmem : Holds mem q (joinWords c.2)) (hlen : (joinWords c.2).length < strFuel)
    (argv : List ℕ) (fuel : ℕ) :
    runActions mem (fuel + 1) (wordStarts q c.2 ++ argv) =
      (c :: (runActions mem fuel argv).1, (runActions mem fuel argv).2) := by
  obtain ⟨hact, hargc, hhead, hc0⟩ := hc
  have hwords := mapM_readStr_wordStarts hmem hc0 hlen
  obtain ⟨name, args, hc2⟩ : ∃ name args, c.2 = name :: args := by
    cases h : c.2 with
    | nil => simp [h] at hhead
    | cons name args => exact ⟨name, args, rfl⟩
  have hname : name = c.1.name := by simpa [hc2] using hhead
  have hread : readStr mem strFuel q = some name := by
    rw [hc2, joinWords_cons, List.append_assoc] at hmem
    exact readStr_eq (holds_append.mp (by simpa using hmem)).1 (hc0 name (by simp [hc2]))
      (by rw [hc2, joinWords_cons] at hlen; simp at hlen; omega)
  have hcount : c.1.argc = (wordStarts (q + name.length + 1) args).length + 1 := by
    rw [length_wordStarts, ← hargc, hc2, List.length_cons]
  rw [hc2, wordStarts] at hwords
  have hfind : findAction name actions = some c.1 := hname ▸ findAction_name hact
  rw [hc2, wordStarts, List.cons_append, runActions, hread]
  dsimp only
  rw [hfind]
  dsimp only
  rw [if_neg (by simp [hcount]), hcount, List.take_succ_cons, List.take_left' rfl, hwords]
  dsimp only
  rw [List.drop_succ_cons, List.drop_left' rfl, ← hc2]

/-- **The actions.** On the words of calls laid out from `p`, `run_actions` calls each action
with its words, in order, and stops at the end of `argv`. The induction is on the calls. -/
lemma runActions_calls : ∀ {calls : List (Action × List (List UInt8))} {mem : ℕ → UInt8}
    {p fuel : ℕ}, (∀ c ∈ calls, IsCall c) → Holds mem p (joinWords (calls.flatMap Prod.snd)) →
    (joinWords (calls.flatMap Prod.snd)).length < strFuel → calls.length < fuel →
    runActions mem fuel (wordStarts p (calls.flatMap Prod.snd)) = (calls, none)
  | [], _, _, fuel, _, _, _, _ => by cases fuel <;> rfl
  | c :: cs, mem, p, fuel, hcalls, hmem, hlen, hfuel => by
    obtain ⟨f, rfl⟩ : ∃ f, fuel = f + 1 := ⟨fuel - 1, by simp at hfuel; omega⟩
    rw [List.flatMap_cons, joinWords_append] at hmem hlen
    rw [List.length_append] at hlen
    obtain ⟨hc, hrest⟩ := holds_append.mp hmem
    rw [List.flatMap_cons, wordStarts_append,
      runActions_of_call (hcalls c List.mem_cons_self) hc (by omega),
      runActions_calls (fun c' hc' => hcalls c' (List.mem_cons_of_mem c hc')) hrest (by omega)
        (by simp at hfuel; omega)]

/-- What stops `run_actions` at a word that does not start a call: a `PANIC` that names it, and,
for an action short of words, the number it takes after its name. -/
def badActionStop (word : List UInt8) : Option Action → Stop
  | none => .panic (bytes "unknown action \x60%s\x27 (use -h for help)") [.str (some word)]
  | some a => .panic (bytes "action \x60%s\x27 requires %d argument(s)")
      [.str (some word), .int ((a.argc : ℤ) - 1)]

/-- At a word that names no action, or an action with fewer words than it takes, `run_actions`
stops. -/
lemma runActions_of_bad {mem : ℕ → UInt8} {p : ℕ} {word : List UInt8} {more : List (List UInt8)}
    (hmem : Holds mem p (word ++ [0])) (hnul : 0 ∉ word) (hlen : word.length < strFuel)
    (hbad : ∀ a, findAction word actions = some a → more.length + 1 < a.argc) (fuel : ℕ) :
    runActions mem (fuel + 1) (wordStarts p (word :: more)) =
      ([], some (badActionStop word (findAction word actions))) := by
  rw [wordStarts, runActions, readStr_eq hmem hnul hlen]
  dsimp only
  cases hfind : findAction word actions with
  | none => rfl
  | some a =>
    dsimp only
    rw [if_pos (by rw [length_wordStarts]; exact hbad a hfind)]
    rfl

/-! ### The command line -/

lemma BootOpt.nul_not_mem_word {o : BootOpt} (ho : o.WellFormed) : 0 ∉ o.word := by
  cases o with
  | randomSeed seed => exact fun h => (List.mem_append.mp h).elim (by decide) ho
  | userPageLimit count => exact fun h => (List.mem_append.mp h).elim (by decide) ho
  | unknown name => exact ho.2.1
  | _ => decide

/-- No action's name starts with `-`, so the options end at the first action. -/
lemma IsCall.head_not_option {c : Action × List (List UInt8)} (hc : IsCall c) :
    ∀ w ∈ c.2.head?, w.head? ≠ some 45 := by
  obtain ⟨hact, -, hhead, -⟩ := hc
  rw [hhead]
  simp only [Option.mem_def, Option.some.injEq, forall_eq']
  simp only [actions, List.mem_cons, List.not_mem_nil, or_false] at hact
  rcases hact with h | h | h | h | h | h <;> rw [h] <;> decide

/-- Each call takes a word at least. The induction is on the calls. -/
lemma length_le_flatMap : ∀ {calls : List (Action × List (List UInt8))},
    (∀ c ∈ calls, IsCall c) → calls.length ≤ (calls.flatMap Prod.snd).length
  | [], _ => le_rfl
  | c :: cs, h => by
    have hne : c.2 ≠ [] := fun hc => by simpa [hc] using (h c List.mem_cons_self).2.2.1
    have ih := length_le_flatMap fun c' hc' => h c' (List.mem_cons_of_mem c hc')
    rw [List.flatMap_cons, List.length_append, List.length_cons]
    have := List.length_pos_iff.mpr hne
    omega

/-- **The kernel reads back its command line.** Options and calls of actions that the loader
laid out in the command line's `LOADER_ARGS_LEN` bytes, each word followed by its NUL, give the
kernel, through `read_command_line`, `parse_options` and `run_actions`, the effect of the
options one after the other, and then the calls of those actions with their words, in order,
up to the end of `argv`. Where the options stop the kernel, by `-h`, an option `usage` does not
list or a value that is missing or does not fit an `int`, the kernel stops as the options do. -/
theorem boot_command_line_round_trip {mem : ℕ → UInt8} {args : ℕ} {opts : List BootOpt}
    {calls : List (Action × List (List UInt8))} (hopts : ∀ o ∈ opts, o.WellFormed)
    (hcalls : ∀ c ∈ calls, IsCall c) (hargs : 0 < args)
    (hmem : Holds mem args (joinWords (opts.map BootOpt.word ++ calls.flatMap Prod.snd)))
    (hlen : (joinWords (opts.map BootOpt.word ++ calls.flatMap Prod.snd)).length ≤ loaderArgsLen) :
    bootCommandLine mem args (opts.map BootOpt.word ++ calls.flatMap Prod.snd).length =
      (opts.foldlM BootOpt.apply bootOptions).map fun o => (o, calls, none) := by
  have hnul : ∀ w ∈ opts.map BootOpt.word ++ calls.flatMap Prod.snd, 0 ∉ w := by
    simp only [List.mem_append, List.mem_map, List.mem_flatMap]
    rintro w (⟨o, ho, rfl⟩ | ⟨c, hc, hw⟩)
    · exact BootOpt.nul_not_mem_word (hopts o ho)
    · exact (hcalls c hc).2.2.2 w hw
  have hfuel : (joinWords (opts.map BootOpt.word ++ calls.flatMap Prod.snd)).length < strFuel := by
    simp only [loaderArgsLen, strFuel] at hlen ⊢
    omega
  rw [joinWords_append, List.length_append] at hfuel
  -- the first action word, if any, ends the options
  have hrest : ∀ w ∈ (calls.flatMap Prod.snd).head?, w.head? ≠ some 45 := by
    cases calls with
    | nil => simp
    | cons c cs =>
      intro w hw
      have hne : c.2 ≠ [] := fun hc => by simpa [hc] using (hcalls c List.mem_cons_self).2.2.1
      obtain ⟨x, xs, hx⟩ := List.exists_cons_of_ne_nil hne
      rw [List.flatMap_cons, hx, List.cons_append, List.head?_cons] at hw
      exact (hcalls c List.mem_cons_self).head_not_option w (by rw [hx]; exact hw)
  have hread : readCommandLine mem args (opts.map BootOpt.word ++ calls.flatMap Prod.snd).length =
      .ok (wordStarts args (opts.map BootOpt.word ++ calls.flatMap Prod.snd)) :=
    readArgs_joinWords mem _ hmem hnul (by omega)
  obtain ⟨mem', hframe, hparse⟩ := parseOptions_words hrest bootOptions hopts hargs hmem
    (by omega)
  -- the words of the calls are where the loader put them: the options wrote only in theirs
  have hcallsm : Holds mem' (args + (joinWords (opts.map BootOpt.word)).length)
      (joinWords (calls.flatMap Prod.snd)) := by
    rw [joinWords_append] at hmem
    exact (holds_append.mp hmem).2.congr fun k hk _ => hframe k hk
  have hrun := runActions_calls hcalls hcallsm (by omega)
    (show calls.length < (wordStarts (args + (joinWords (opts.map BootOpt.word)).length)
        (calls.flatMap Prod.snd)).length + 1 by
      rw [length_wordStarts]
      have := length_le_flatMap hcalls
      omega)
  rw [bootCommandLine, hread]
  simp only [bind, Except.bind]
  rw [hparse]
  cases opts.foldlM BootOpt.apply bootOptions <;>
    simp [Except.map, pure, Except.pure, hrun]

/-- `-q -rs=42 run 'echo x'`, laid out at `1000`. -/
theorem boot_command_line_round_trip_echo :
    (∀ o ∈ [BootOpt.quiet, .randomSeed (bytes "42")], o.WellFormed) ∧
      (∀ c ∈ [((⟨bytes "run", 2⟩ : Action), [bytes "run", bytes "echo x"])], IsCall c) ∧
      0 < 1000 ∧
      Holds (fun q => if 1000 ≤ q then (joinWords [bytes "-q", bytes "-rs=42", bytes "run",
          bytes "echo x"]).getD (q - 1000) 0 else 0) 1000
        (joinWords ([BootOpt.quiet, .randomSeed (bytes "42")].map BootOpt.word ++
          [((⟨bytes "run", 2⟩ : Action), [bytes "run", bytes "echo x"])].flatMap Prod.snd)) ∧
      (joinWords ([BootOpt.quiet, .randomSeed (bytes "42")].map BootOpt.word ++
          [((⟨bytes "run", 2⟩ : Action), [bytes "run", bytes "echo x"])].flatMap Prod.snd)).length ≤
        loaderArgsLen ∧
      bootCommandLine (fun q => if 1000 ≤ q then (joinWords [bytes "-q", bytes "-rs=42",
          bytes "run", bytes "echo x"]).getD (q - 1000) 0 else 0) 1000
          ([BootOpt.quiet, .randomSeed (bytes "42")].map BootOpt.word ++
            [((⟨bytes "run", 2⟩ : Action), [bytes "run", bytes "echo x"])].flatMap Prod.snd).length =
        ([BootOpt.quiet, .randomSeed (bytes "42")].foldlM BootOpt.apply bootOptions).map fun o =>
          (o, [((⟨bytes "run", 2⟩ : Action), [bytes "run", bytes "echo x"])], none) := by
  have hopts : ∀ o ∈ [BootOpt.quiet, .randomSeed (bytes "42")], o.WellFormed := by
    simp only [List.mem_cons, List.not_mem_nil, or_false, forall_eq_or_imp, forall_eq]
    exact ⟨trivial, show 0 ∉ bytes "42" by decide⟩
  have hcalls : ∀ c ∈ [((⟨bytes "run", 2⟩ : Action), [bytes "run", bytes "echo x"])], IsCall c := by
    simp only [List.mem_cons, List.not_mem_nil, or_false, forall_eq]
    exact ⟨by decide, rfl, rfl, by decide⟩
  have hmem : Holds (fun q => if 1000 ≤ q then (joinWords [bytes "-q", bytes "-rs=42",
      bytes "run", bytes "echo x"]).getD (q - 1000) 0 else 0) 1000
      (joinWords ([BootOpt.quiet, .randomSeed (bytes "42")].map BootOpt.word ++
        [((⟨bytes "run", 2⟩ : Action), [bytes "run", bytes "echo x"])].flatMap Prod.snd)) := by
    unfold Holds
    decide
  have hlen : (joinWords ([BootOpt.quiet, .randomSeed (bytes "42")].map BootOpt.word ++
      [((⟨bytes "run", 2⟩ : Action), [bytes "run", bytes "echo x"])].flatMap Prod.snd)).length ≤
      loaderArgsLen := by
    decide
  exact ⟨hopts, hcalls, by decide, hmem, hlen,
    boot_command_line_round_trip hopts hcalls (by decide) hmem hlen⟩

/-- **A bad action stops the kernel after the actions before it.** On the words of calls laid
out from `p` and then a word that names no action, or an action with fewer words after it than
it takes, `run_actions` first calls the actions before, each with its words, and then stops
with a `PANIC` that names the word: "unknown action", or the number of words the action
requires. The induction is on the calls. -/
theorem run_actions_stops {mem : ℕ → UInt8} {calls : List (Action × List (List UInt8))}
    (hcalls : ∀ c ∈ calls, IsCall c) {word : List UInt8} {more : List (List UInt8)}
    (hnul : 0 ∉ word) (hbad : ∀ a, findAction word actions = some a → more.length + 1 < a.argc) :
    ∀ {p fuel : ℕ}, Holds mem p (joinWords (calls.flatMap Prod.snd ++ [word])) →
      (joinWords (calls.flatMap Prod.snd ++ [word])).length < strFuel → calls.length < fuel →
      runActions mem fuel (wordStarts p (calls.flatMap Prod.snd ++ word :: more)) =
        (calls, some (badActionStop word (findAction word actions))) := by
  induction calls with
  | nil =>
    intro p fuel hmem hlen hfuel
    obtain ⟨f, rfl⟩ : ∃ f, fuel = f + 1 := ⟨fuel - 1, by simp at hfuel; omega⟩
    have hone : joinWords [word] = word ++ [0] := by simp [joinWords]
    rw [List.flatMap_nil, List.nil_append, hone] at hmem hlen
    rw [List.flatMap_nil, List.nil_append]
    exact runActions_of_bad hmem hnul (by simp at hlen; omega) hbad f
  | cons c cs ih =>
    intro p fuel hmem hlen hfuel
    obtain ⟨f, rfl⟩ : ∃ f, fuel = f + 1 := ⟨fuel - 1, by simp at hfuel; omega⟩
    rw [List.flatMap_cons, List.append_assoc, joinWords_append] at hmem hlen
    rw [List.length_append] at hlen
    obtain ⟨hc, hrest⟩ := holds_append.mp hmem
    rw [List.flatMap_cons, List.append_assoc, wordStarts_append,
      runActions_of_call (hcalls c List.mem_cons_self) hc (by omega),
      ih (fun c' hc' => hcalls c' (List.mem_cons_of_mem c hc')) hrest (by omega)
        (by simp at hfuel; omega)]

/-- `ls cat`, laid out at `1000`: `ls` runs, and `cat` has no file name. -/
theorem run_actions_stops_cat :
    (∀ c ∈ [((⟨bytes "ls", 1⟩ : Action), [bytes "ls"])], IsCall c) ∧ 0 ∉ bytes "cat" ∧
      (∀ a, findAction (bytes "cat") actions = some a → ([] : List (List UInt8)).length + 1 < a.argc) ∧
      Holds (fun q => if 1000 ≤ q then (joinWords [bytes "ls", bytes "cat"]).getD (q - 1000) 0
          else 0) 1000
        (joinWords ([((⟨bytes "ls", 1⟩ : Action), [bytes "ls"])].flatMap Prod.snd ++ [bytes "cat"])) ∧
      (joinWords ([((⟨bytes "ls", 1⟩ : Action), [bytes "ls"])].flatMap Prod.snd ++
          [bytes "cat"])).length < strFuel ∧
      [((⟨bytes "ls", 1⟩ : Action), [bytes "ls"])].length < 2 ∧
      runActions (fun q => if 1000 ≤ q then (joinWords [bytes "ls", bytes "cat"]).getD (q - 1000) 0
          else 0) 2
          (wordStarts 1000 ([((⟨bytes "ls", 1⟩ : Action), [bytes "ls"])].flatMap Prod.snd ++
            [bytes "cat"])) =
        ([((⟨bytes "ls", 1⟩ : Action), [bytes "ls"])],
          some (badActionStop (bytes "cat") (findAction (bytes "cat") actions))) := by
  have hcalls : ∀ c ∈ [((⟨bytes "ls", 1⟩ : Action), [bytes "ls"])], IsCall c := by
    simp only [List.mem_cons, List.not_mem_nil, or_false, forall_eq]
    exact ⟨by decide, rfl, rfl, by decide⟩
  have hnul : 0 ∉ bytes "cat" := by decide
  have hfind : findAction (bytes "cat") actions = some ⟨bytes "cat", 2⟩ := by decide
  have hbad : ∀ a, findAction (bytes "cat") actions = some a →
      ([] : List (List UInt8)).length + 1 < a.argc := by
    intro a ha
    rw [hfind, Option.some.injEq] at ha
    rw [← ha]
    decide
  have hmem : Holds (fun q => if 1000 ≤ q then (joinWords [bytes "ls", bytes "cat"]).getD
      (q - 1000) 0 else 0) 1000
      (joinWords ([((⟨bytes "ls", 1⟩ : Action), [bytes "ls"])].flatMap Prod.snd ++ [bytes "cat"])) := by
    unfold Holds
    decide
  have hlen : (joinWords ([((⟨bytes "ls", 1⟩ : Action), [bytes "ls"])].flatMap Prod.snd ++
      [bytes "cat"])).length < strFuel := by
    decide
  exact ⟨hcalls, hnul, hbad, hmem, hlen, by decide,
    run_actions_stops hcalls hnul hbad hmem hlen (by decide)⟩

end TinyOs
