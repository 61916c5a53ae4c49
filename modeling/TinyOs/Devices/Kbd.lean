import TinyOs.Devices.SerialInv

/-!
The keyboard driver, `devices/kbd.c`. `keyboard_interrupt` reads a scancode from the keyboard
controller: one byte, or the prefix `0xe0` and a second byte. Bit `0x80` marks a release, also
after the prefix. A press of Caps Lock toggles `caps_lock`. A key with a character in the
keymaps puts a character in the input buffer when it is pressed and the buffer has room; Ctrl,
Shift, Caps Lock and Alt decide which one. Any other key is looked up in the table of shift
keys, and the state of the key found becomes whether it is down.

The driver's state is the six shift keys, `caps_lock` and `key_cnt`. The system is that state
together with the serial system of `Devices.Serial`, whose input buffer the driver fills. A step
is a step of the serial system or a keyboard interrupt, with the bytes the controller presents.
Keys reach the serial system only through the interrupt here: its `key` event is what the
interrupt does to the buffer.

* `keyboard_interrupt_returns`: from every reachable state the keyboard interrupt returns, and
  what it does to the serial system is that system's key event or nothing;
* `kbd_shift_key_last_event`: over every run, each shift key is down exactly when its last
  event was a press;
* `kbd_caps_lock_parity`: over every run, Caps Lock has toggled once per press;
* `kbd_key_cnt_counts_buffered`: `key_cnt` counts the characters put in the input buffer, not
  the keys pressed;
* `keyboard_letter_case`: a letter key gives its control code under Ctrl, otherwise its capital
  exactly when one of Shift and Caps Lock is on, and Alt sets the high bit.
-/

namespace TinyOs

namespace Devices

/-! ### The driver's state -/

/-- The shift keys of `kbd.c`: `static bool`s, true while the key is down. -/
inductive ShiftKey
  | leftShift
  | rightShift
  | leftAlt
  | rightAlt
  | leftCtrl
  | rightCtrl
  deriving DecidableEq

/-- The scancode of each shift key, the one `shift_keys` gives it. -/
def ShiftKey.scancode : ShiftKey → ℕ
  | .leftShift => 0x2a
  | .rightShift => 0x36
  | .leftAlt => 0x38
  | .rightAlt => 0xe038
  | .leftCtrl => 0x1d
  | .rightCtrl => 0xe01d

/-- The static state of `kbd.c`. -/
structure Kbd where
  /-- `left_shift`, `right_shift`, `left_alt`, `right_alt`, `left_ctrl`, `right_ctrl`. -/
  down : ShiftKey → Bool
  capsLock : Bool
  keyCnt : ℕ

namespace Kbd

variable (k : Kbd)

/-- `shift = left_shift || right_shift`. -/
def shift : Bool := k.down .leftShift || k.down .rightShift

/-- `alt = left_alt || right_alt`. -/
def alt : Bool := k.down .leftAlt || k.down .rightAlt

/-- `ctrl = left_ctrl || right_ctrl`. -/
def ctrl : Bool := k.down .leftCtrl || k.down .rightCtrl

end Kbd

/-! ### The keymaps -/

/-- `struct keymap`: `chars[i]` is the character of scancode `first_scancode + i`. -/
structure Keymap where
  firstScancode : ℕ
  chars : String

/-- `invariant_keymap`: the keys whose character Shift does not change. `"\033"` and `"\b"` are
written in hex. -/
def invariantKeymap : List Keymap :=
  [⟨0x01, "\x1b"⟩, ⟨0x0e, "\x08"⟩, ⟨0x0f, "\tQWERTYUIOP"⟩, ⟨0x1c, "\r"⟩, ⟨0x1e, "ASDFGHJKL"⟩,
    ⟨0x2c, "ZXCVBNM"⟩, ⟨0x37, "*"⟩, ⟨0x39, " "⟩]

/-- `unshifted_keymap`. The quote, the backquote and the backslash are written in hex. -/
def unshiftedKeymap : List Keymap :=
  [⟨0x02, "1234567890-="⟩, ⟨0x1a, "[]"⟩, ⟨0x27, ";\x27\x60"⟩, ⟨0x2b, "\x5c"⟩, ⟨0x33, ",./"⟩]

/-- `shifted_keymap`. The braces and the double quote are written in hex. -/
def shiftedKeymap : List Keymap :=
  [⟨0x02, "!@#$%^&*()_+"⟩, ⟨0x1a, "\x7b\x7d"⟩, ⟨0x27, ":\x22~"⟩, ⟨0x2b, "|"⟩, ⟨0x33, "<>?"⟩]

/-- `map_key (k, scancode, &c)`: the character of `scancode` in the first keymap whose range,
from `first_scancode` for `strlen (chars)` codes, holds it. -/
def mapKey : List Keymap → ℕ → Option UInt8
  | [], _ => none
  | k :: ks, scancode =>
    if k.firstScancode ≤ scancode ∧ scancode < k.firstScancode + k.chars.length then
      some ((k.chars.toList.map Char.toUInt8).getD (scancode - k.firstScancode) 0)
    else mapKey ks scancode

/-- The character of key `code`, if it has one: `map_key (invariant_keymap, code, &c)
|| (!shift && map_key (unshifted_keymap, code, &c))
|| (shift && map_key (shifted_keymap, code, &c))`. -/
def Kbd.keyChar (k : Kbd) (code : ℕ) : Option UInt8 :=
  mapKey invariantKeymap code <|> (if !k.shift then mapKey unshiftedKeymap code else none) <|>
    (if k.shift then mapKey shiftedKeymap code else none)

/-- `isupper (c)` of `lib/ctype.h`: from `'A'` to `'Z'`. -/
def isupper (c : UInt8) : Bool := 65 ≤ c && c ≤ 90

/-- `tolower (c)` of `lib/ctype.h`: `c - 'A' + 'a'` for a capital. -/
def tolower (c : UInt8) : UInt8 := if isupper c then c - 65 + 97 else c

/-- The character a press puts in the buffer for a key with character `c`. With Ctrl down, a
character from `0x40` to `0x5f` becomes its control code, and Ctrl overrides Shift. Otherwise,
when Shift is as Caps Lock is, `tolower`. Alt then sets the high bit. -/
def Kbd.pressChar (k : Kbd) (c : UInt8) : UInt8 :=
  let c := if k.ctrl && 0x40 ≤ c && c < 0x60 then c - 0x40
    else if k.shift == k.capsLock then tolower c else c
  if k.alt then c + 0x80 else c

/-! ### The shift keys -/

/-- `shift_keys`: the scancode of each shift key. -/
def shiftKeys : List (ℕ × ShiftKey) :=
  [(0x2a, .leftShift), (0x36, .rightShift), (0x38, .leftAlt), (0xe038, .rightAlt),
    (0x1d, .leftCtrl), (0xe01d, .rightCtrl)]

/-- The scan of `shift_keys` for `code`: the first key with that scancode gets
`*key->state_var = !release`. -/
def setShiftKey (down : ShiftKey → Bool) (code : ℕ) (release : Bool) :
    List (ℕ × ShiftKey) → ShiftKey → Bool
  | [] => down
  | key :: keys =>
    if key.1 = code then Function.update down key.2 !release else setShiftKey down code release keys

/-! ### The interrupt -/

/-- The scancode `keyboard_interrupt` reads, `first` and `second` being the bytes the controller
presents: `inb (DATA_REG)`, and after the prefix `0xe0`, `(code << 8) | inb (DATA_REG)`. -/
def readCode (first second : UInt8) : ℕ :=
  if first.toNat = 0xe0 then (0xe0 <<< 8) ||| second.toNat else first.toNat

/-- `release = (code & 0x80) != 0`. -/
def isRelease (code : ℕ) : Bool := code &&& 0x80 != 0

/-- `code &= ~0x80u`, where `~0x80u` is `0xffffff7f` in 32 bits. -/
def keyCode (code : ℕ) : ℕ := code &&& 0xffffff7f

/-- The keyboard driver and the serial system whose input buffer it fills. -/
structure KbdSys (τ : Type) where
  kbd : Kbd
  serial : SerialSys τ

variable {τ : Type} [DecidableEq τ]

/-- `keyboard_interrupt ()`, the controller presenting `first` and then `second`. The shift
state is read before the key changes it, as the C reads `shift`, `alt` and `ctrl` first. -/
def KbdSys.keyboardInterrupt (s : KbdSys τ) (first second : UInt8) : Option (KbdSys τ) :=
  let release := isRelease (readCode first second)
  let code := keyCode (readCode first second)
  if code = 0x3a then
    -- Caps Lock
    some (if release then s else { s with kbd := { s.kbd with capsLock := !s.kbd.capsLock } })
  else
    match s.kbd.keyChar code with
    | some c =>
      -- an ordinary character: `key_cnt++` and `input_putc (c)` if `!input_full ()`
      if release then some s
      else if intqFull s.serial.buffer.q then some s
      else (s.serial.inputPutc (s.kbd.pressChar c)).map fun serial =>
        ⟨{ s.kbd with keyCnt := s.kbd.keyCnt + 1 }, serial⟩
    | none =>
      some { s with kbd := { s.kbd with down := setShiftKey s.kbd.down code release shiftKeys } }

/-- Whether a serial event is a key, which in this system only the keyboard interrupt makes. -/
def SerialEvent.isKey : SerialEvent τ → Bool
  | .key _ => true
  | _ => false

/-- A step of the system: a step of the serial system other than a key, or a keyboard
interrupt. -/
inductive KbdEvent (τ : Type)
  | serial (e : SerialEvent τ)
  | scancode (first second : UInt8)

def KbdSys.kbdStep (s : KbdSys τ) : KbdEvent τ → Option (KbdSys τ)
  | .serial e => if e.isKey then none else (s.serial.serialStep e).map fun serial => { s with serial }
  | .scancode first second => s.keyboardInterrupt first second

/-- The system at boot: every shift key up, Caps Lock off, no key counted, and the serial
system at boot. -/
def kbdStart (txq buffer : Intq τ) : KbdSys τ :=
  ⟨⟨fun _ => false, false, 0⟩, serialStart txq buffer⟩

/-- A run of steps. -/
def kbdRun (s : KbdSys τ) : List (KbdEvent τ) → Option (KbdSys τ)
  | [] => some s
  | e :: es => (s.kbdStep e).bind fun s => kbdRun s es

/-- The states some interleaving of interrupts and calls reaches. -/
inductive KbdReachable : KbdSys τ → Prop
  | init (txq buffer : Intq τ) : KbdReachable (kbdStart txq buffer)
  | step {s s' : KbdSys τ} (e : KbdEvent τ) :
      KbdReachable s → s.kbdStep e = some s' → KbdReachable s'

/-! ### The tables -/

/-- `map_key` finds nothing for a code outside every keymap's range. The induction is on the
keymaps. -/
lemma mapKey_eq_none {code : ℕ} :
    ∀ {ks : List Keymap}, (∀ k ∈ ks, code < k.firstScancode ∨ k.firstScancode + k.chars.length ≤ code) →
      mapKey ks code = none
  | [], _ => rfl
  | k :: ks, h => by
    have hk := h k List.mem_cons_self
    rw [mapKey, if_neg (by omega)]
    exact mapKey_eq_none fun k' hk' => h k' (List.mem_cons_of_mem _ hk')

/-- A code outside the ranges of all three keymaps has no character, whatever the shift state. -/
lemma Kbd.keyChar_eq_none (k : Kbd) {code : ℕ}
    (h : ∀ km ∈ invariantKeymap ++ unshiftedKeymap ++ shiftedKeymap,
      code < km.firstScancode ∨ km.firstScancode + km.chars.length ≤ code) :
    k.keyChar code = none := by
  have hinv : mapKey invariantKeymap code = none := mapKey_eq_none fun km hkm => h km (by simp [hkm])
  have hun : mapKey unshiftedKeymap code = none := mapKey_eq_none fun km hkm => h km (by simp [hkm])
  have hsh : mapKey shiftedKeymap code = none := mapKey_eq_none fun km hkm => h km (by simp [hkm])
  rw [Kbd.keyChar, hinv, hun, hsh]
  cases k.shift <;> rfl

/-- A shift key has no character: the keymaps leave out the scancodes of `shift_keys`. -/
lemma Kbd.keyChar_scancode (k : Kbd) (key : ShiftKey) : k.keyChar key.scancode = none :=
  k.keyChar_eq_none (by cases key <;> decide)

/-- Caps Lock has no character. -/
lemma Kbd.keyChar_caps (k : Kbd) : k.keyChar 0x3a = none :=
  k.keyChar_eq_none (by decide)

lemma Kbd.ne_scancode_of_keyChar {k : Kbd} {code : ℕ} {c : UInt8} (hc : k.keyChar code = some c)
    (key : ShiftKey) : code ≠ key.scancode := by
  rintro rfl
  rw [k.keyChar_scancode] at hc
  cases hc

lemma Kbd.ne_caps_of_keyChar {k : Kbd} {code : ℕ} {c : UInt8} (hc : k.keyChar code = some c) :
    code ≠ 0x3a := by
  rintro rfl
  rw [k.keyChar_caps] at hc
  cases hc

/-- The scan of a table whose scancodes are distinct sets a key exactly when the table pairs it
with the code. The induction is on the table. -/
lemma setShiftKey_apply (down : ShiftKey → Bool) (code : ℕ) (release : Bool) (key : ShiftKey) :
    ∀ {keys : List (ℕ × ShiftKey)}, (keys.map Prod.fst).Nodup →
      setShiftKey down code release keys key = if (code, key) ∈ keys then !release else down key
  | [], _ => by simp [setShiftKey]
  | (c₀, k₀) :: keys, hnd => by
    rw [List.map_cons, List.nodup_cons] at hnd
    by_cases hc : c₀ = code
    · -- the scan stops here: no later entry has this scancode
      subst hc
      have hnot : (c₀, key) ∉ keys := fun hm => hnd.1 (List.mem_map.mpr ⟨_, hm, rfl⟩)
      simp only [setShiftKey, if_true, Function.update_apply, List.mem_cons, Prod.mk.injEq,
        true_and, hnot, or_false]
    · simp only [setShiftKey, if_neg hc, List.mem_cons, Prod.mk.injEq, Ne.symm hc, false_and,
        false_or]
      exact setShiftKey_apply down code release key hnd.2

lemma mem_shiftKeys {code : ℕ} {key : ShiftKey} : (code, key) ∈ shiftKeys ↔ code = key.scancode := by
  cases key <;> simp [shiftKeys, ShiftKey.scancode]

/-- The scan of `shift_keys` sets a key exactly for its own scancode. -/
lemma setShiftKey_shiftKeys (down : ShiftKey → Bool) (code : ℕ) (release : Bool) (key : ShiftKey) :
    setShiftKey down code release shiftKeys key = if code = key.scancode then !release else down key := by
  rw [setShiftKey_apply down code release key (by decide)]
  simp only [mem_shiftKeys]

/-! ### The characters -/

/-- For a capital, Ctrl gives the control code, and otherwise the case follows whether Shift and
Caps Lock differ. Alt sets the high bit. -/
lemma Kbd.pressChar_of_isupper (k : Kbd) {c : UInt8} (hc : isupper c = true) :
    k.pressChar c = (if k.alt then 0x80 else 0) +
      (if k.ctrl then c - 0x40 else if k.shift != k.capsLock then c else c + 0x20) := by
  have hrange : (0x40 ≤ c && c < 0x60) = true := by
    simp only [isupper, Bool.and_eq_true, decide_eq_true_eq, UInt8.le_iff_toNat_le,
      UInt8.lt_iff_toNat_lt] at hc ⊢
    simp only [UInt8.reduceToNat] at hc ⊢
    omega
  have hlower : tolower c = c + 0x20 := by
    rw [tolower, if_pos hc]
    grind
  -- before Alt: the control code, or the letter in the case Shift and Caps Lock give
  have hbase : (if (k.ctrl && 0x40 ≤ c && c < 0x60) = true then c - 0x40
      else if (k.shift == k.capsLock) = true then tolower c else c) =
      if k.ctrl then c - 0x40 else if k.shift != k.capsLock then c else c + 0x20 := by
    cases k.ctrl <;> cases k.shift <;> cases k.capsLock <;> simp [hrange, hlower]
  unfold Kbd.pressChar
  dsimp only
  rw [hbase]
  cases k.alt
  · simp
  · simp [UInt8.add_comm]

/-! ### What one interrupt does -/

/-- `input_putc` adds its key to the buffer's log of keys. -/
lemma SerialSys.inputPutc_puts {s s' : SerialSys τ} {key : UInt8} (h : s.inputPutc key = some s') :
    s'.buffer.puts = s.buffer.puts ++ [key] := by
  unfold SerialSys.inputPutc at h
  split_ifs at h
  obtain ⟨buffer, hb, rfl⟩ := Option.map_eq_some_iff.mp h
  have hbytes := congrArg Bytes.puts (IntqSys.intrCall_bytes hb).2
  unfold SerialSys.serialNotify SerialSys.writeIer
  split_ifs <;> exact hbytes

section Interrupt

variable {s s' : KbdSys τ} {first second : UInt8}

/-- **What a keyboard interrupt can do.** Caps Lock toggles on a press; a key with a character
changes nothing on a release or with the buffer full, and otherwise counts the key and hands its
character to `input_putc`; any other key goes through `shift_keys`. -/
lemma KbdSys.keyboardInterrupt_eq_some (h : s.keyboardInterrupt first second = some s') :
    (keyCode (readCode first second) = 0x3a ∧
        s' = if isRelease (readCode first second) then s
          else { s with kbd := { s.kbd with capsLock := !s.kbd.capsLock } }) ∨
      (∃ c, s.kbd.keyChar (keyCode (readCode first second)) = some c ∧
        ((isRelease (readCode first second) = true ∨ intqFull s.serial.buffer.q = true) ∧ s' = s ∨
          isRelease (readCode first second) = false ∧ intqFull s.serial.buffer.q = false ∧
            s.serial.inputPutc (s.kbd.pressChar c) = some s'.serial ∧
            s'.kbd = { s.kbd with keyCnt := s.kbd.keyCnt + 1 })) ∨
      (s.kbd.keyChar (keyCode (readCode first second)) = none ∧
        keyCode (readCode first second) ≠ 0x3a ∧
        s' = { s with kbd := { s.kbd with
          down := setShiftKey s.kbd.down (keyCode (readCode first second))
            (isRelease (readCode first second)) shiftKeys } }) := by
  unfold KbdSys.keyboardInterrupt at h
  dsimp only at h
  by_cases hcaps : keyCode (readCode first second) = 0x3a
  · rw [if_pos hcaps] at h
    exact .inl ⟨hcaps, (Option.some.inj h).symm⟩
  · rw [if_neg hcaps] at h
    split at h
    · rename_i c hc
      refine .inr (.inl ⟨c, hc, ?_⟩)
      split_ifs at h with hrel hfull
      · exact .inl ⟨.inl hrel, (Option.some.inj h).symm⟩
      · exact .inl ⟨.inr hfull, (Option.some.inj h).symm⟩
      · obtain ⟨serial, hs, rfl⟩ := Option.map_eq_some_iff.mp h
        exact .inr ⟨by simpa using hrel, by simpa using hfull, hs, rfl⟩
    · rename_i hc
      exact .inr (.inr ⟨hc, hcaps, (Option.some.inj h).symm⟩)

/-- Only a shift key's own scancode moves it: down on a press, up on a release. -/
lemma KbdSys.keyboardInterrupt_down (h : s.keyboardInterrupt first second = some s')
    (key : ShiftKey) :
    s'.kbd.down key = if keyCode (readCode first second) = key.scancode
      then !isRelease (readCode first second) else s.kbd.down key := by
  rcases s.keyboardInterrupt_eq_some h with
    ⟨hcaps, rfl⟩ | ⟨c, hc, ⟨-, rfl⟩ | ⟨-, -, -, hk⟩⟩ | ⟨-, -, rfl⟩
  · have hne : keyCode (readCode first second) ≠ key.scancode := by
      rw [hcaps]
      cases key <;> decide
    rw [if_neg hne]
    split_ifs <;> rfl
  · rw [if_neg (Kbd.ne_scancode_of_keyChar hc key)]
  · rw [hk, if_neg (Kbd.ne_scancode_of_keyChar hc key)]
  · exact setShiftKey_shiftKeys _ _ _ key

/-- Whether an interrupt is a press of Caps Lock. -/
def isCapsPress (first second : UInt8) : Bool :=
  keyCode (readCode first second) = 0x3a && !isRelease (readCode first second)

/-- Caps Lock toggles on its press and on nothing else. -/
lemma KbdSys.keyboardInterrupt_capsLock (h : s.keyboardInterrupt first second = some s') :
    s'.kbd.capsLock = if isCapsPress first second then !s.kbd.capsLock else s.kbd.capsLock := by
  rcases s.keyboardInterrupt_eq_some h with
    ⟨hcaps, rfl⟩ | ⟨c, hc, ⟨-, rfl⟩ | ⟨-, -, -, hk⟩⟩ | ⟨-, hne, rfl⟩
  · cases hrel : isRelease (readCode first second) <;> simp [isCapsPress, hcaps, hrel]
  · simp [isCapsPress, Kbd.ne_caps_of_keyChar hc]
  · simp [hk, isCapsPress, Kbd.ne_caps_of_keyChar hc]
  · simp [isCapsPress, hne]

/-- What the interrupt does to the serial system and to `key_cnt`: nothing, or one key handed to
`input_putc` on a buffer with room, and counted. -/
lemma KbdSys.keyboardInterrupt_serial (h : s.keyboardInterrupt first second = some s') :
    (s'.serial = s.serial ∧ s'.kbd.keyCnt = s.kbd.keyCnt) ∨
      ∃ c, intqFull s.serial.buffer.q = false ∧ s.serial.inputPutc c = some s'.serial ∧
        s'.kbd.keyCnt = s.kbd.keyCnt + 1 := by
  rcases s.keyboardInterrupt_eq_some h with
    ⟨-, rfl⟩ | ⟨c, -, ⟨-, rfl⟩ | ⟨-, hfull, hput, hk⟩⟩ | ⟨-, -, rfl⟩
  · left
    split_ifs <;> exact ⟨rfl, rfl⟩
  · exact .inl ⟨rfl, rfl⟩
  · exact .inr ⟨_, hfull, hput, by rw [hk]⟩
  · exact .inl ⟨rfl, rfl⟩

/-- With the serial system's invariant the interrupt returns: the one call that could fail,
`input_putc`, is made only on a buffer with room. -/
lemma KbdSys.keyboardInterrupt_isSome (h : SerialInv s.serial) (first second : UInt8) :
    (s.keyboardInterrupt first second).isSome := by
  unfold KbdSys.keyboardInterrupt
  dsimp only
  by_cases hcaps : keyCode (readCode first second) = 0x3a
  · rw [if_pos hcaps, Option.isSome_some]
  · rw [if_neg hcaps]
    split
    · split_ifs with hrel hfull
      · rfl
      · rfl
      · obtain ⟨serial, hserial⟩ :=
          Option.isSome_iff_exists.mp (h.inputPutc_isSome _ (by simpa using hfull))
        rw [hserial, Option.map_some, Option.isSome_some]
    · rfl

end Interrupt

/-! ### Steps and runs -/

section Steps

variable {s s' : KbdSys τ}

lemma KbdSys.kbdStep_serial {e : SerialEvent τ} (h : s.kbdStep (.serial e) = some s') :
    s.serial.serialStep e = some s'.serial ∧ s'.kbd = s.kbd := by
  simp only [KbdSys.kbdStep] at h
  split_ifs at h
  obtain ⟨serial, hs, rfl⟩ := Option.map_eq_some_iff.mp h
  exact ⟨hs, rfl⟩

/-- The keyboard's change to the serial system is the serial system's own key event. -/
lemma SerialSys.serialStep_key_of_inputPutc {s s' : SerialSys τ} {c : UInt8}
    (hfull : intqFull s.buffer.q = false) (hput : s.inputPutc c = some s') :
    s.serialStep (.key c) = some s' := by
  simp [SerialSys.serialStep, SerialSys.kbdPutc, hfull, hput]

/-- **The system refines the serial system.** Every step is a step of the serial system or
leaves it as it was. -/
lemma KbdSys.kbdStep_serialStep {e : KbdEvent τ} (h : s.kbdStep e = some s') :
    s'.serial = s.serial ∨ ∃ e', s.serial.serialStep e' = some s'.serial := by
  cases e with
  | serial e => exact .inr ⟨e, (KbdSys.kbdStep_serial h).1⟩
  | scancode first second =>
    rcases KbdSys.keyboardInterrupt_serial h with ⟨hs, -⟩ | ⟨c, hfull, hput, -⟩
    · exact .inl hs
    · exact .inr ⟨.key c, SerialSys.serialStep_key_of_inputPutc hfull hput⟩

lemma KbdReachable.serial (h : KbdReachable s) : SerialReachable s.serial := by
  induction h with
  | init txq buffer => exact .init txq buffer
  | step e _ hs ih =>
    rcases KbdSys.kbdStep_serialStep hs with heq | ⟨e', he'⟩
    · exact heq ▸ ih
    · exact .step e' ih he'

/-- The release bit of an event on key `code`; `none` for any other event. -/
def KbdEvent.releaseOn (code : ℕ) : KbdEvent τ → Option Bool
  | .serial _ => none
  | .scancode first second =>
    if keyCode (readCode first second) = code then some (isRelease (readCode first second))
    else none

/-- Whether an event is a press of Caps Lock. -/
def KbdEvent.pressesCaps : KbdEvent τ → Bool
  | .serial _ => false
  | .scancode first second => isCapsPress first second

lemma KbdSys.kbdStep_down {e : KbdEvent τ} (h : s.kbdStep e = some s') (key : ShiftKey) :
    s'.kbd.down key = ((e.releaseOn key.scancode).map not).getD (s.kbd.down key) := by
  cases e with
  | serial e => simp [KbdEvent.releaseOn, (KbdSys.kbdStep_serial h).2]
  | scancode first second =>
    rw [KbdSys.keyboardInterrupt_down h key, KbdEvent.releaseOn]
    split_ifs <;> rfl

lemma KbdSys.kbdStep_capsLock {e : KbdEvent τ} (h : s.kbdStep e = some s') :
    s'.kbd.capsLock = if e.pressesCaps then !s.kbd.capsLock else s.kbd.capsLock := by
  cases e with
  | serial e => simp [KbdEvent.pressesCaps, (KbdSys.kbdStep_serial h).2]
  | scancode first second => exact KbdSys.keyboardInterrupt_capsLock h

lemma kbdRun_cons {e : KbdEvent τ} {es : List (KbdEvent τ)} (h : kbdRun s (e :: es) = some s') :
    ∃ s₁, s.kbdStep e = some s₁ ∧ kbdRun s₁ es = some s' :=
  Option.bind_eq_some_iff.mp h

/-- The release bit of the last event on key `code` in a run, if there is one. -/
def lastRelease (code : ℕ) : List (KbdEvent τ) → Option Bool
  | [] => none
  | e :: es => (lastRelease code es).or (e.releaseOn code)

end Steps

/-! ### The driver over every run -/

/-- **A shift key is down exactly when its last event was a press.** Over every run, each of the
six shift keys is as its last press or release left it, whatever else happened; a run with no
event on it leaves it as it was. No key is ever stuck or set by another key's scancode. The
induction is on the run. -/
theorem kbd_shift_key_last_event {s s' : KbdSys τ} {es : List (KbdEvent τ)}
    (h : kbdRun s es = some s') (key : ShiftKey) :
    s'.kbd.down key = ((lastRelease key.scancode es).map not).getD (s.kbd.down key) := by
  induction es generalizing s with
  | nil =>
    rw [kbdRun, Option.some.injEq] at h
    rw [← h, lastRelease, Option.map_none, Option.getD_none]
  | cons e es ih =>
    obtain ⟨s₁, h₁, hrun⟩ := kbdRun_cons h
    rw [ih hrun, KbdSys.kbdStep_down h₁ key, lastRelease]
    -- the last event on the key is in the rest of the run, or it is the first step's
    cases lastRelease key.scancode es <;> simp

/-- At boot, Left Shift pressed, `Q` typed and Left Shift released. -/
theorem kbd_shift_key_last_event_boot :
    ∃ s', kbdRun (kbdStart (intqBoot : Intq ℕ) intqBoot)
        [.scancode 0x2a 0, .scancode 0x10 0, .scancode 0xaa 0] = some s' ∧
      s'.kbd.down .leftShift = ((lastRelease ShiftKey.leftShift.scancode
        ([.scancode 0x2a 0, .scancode 0x10 0, .scancode 0xaa 0] : List (KbdEvent ℕ))).map not).getD
          ((kbdStart (intqBoot : Intq ℕ) intqBoot).kbd.down .leftShift) := by
  have hrun : (kbdRun (kbdStart (intqBoot : Intq ℕ) intqBoot)
      [.scancode 0x2a 0, .scancode 0x10 0, .scancode 0xaa 0]).isSome := by
    decide
  obtain ⟨s', hs'⟩ := Option.isSome_iff_exists.mp hrun
  exact ⟨s', hs', kbd_shift_key_last_event hs' .leftShift⟩

/-- **Caps Lock toggles once per press.** Over every run, Caps Lock is as it was after an even
number of presses of its key and toggled after an odd number; releases and every other key
leave it. The induction is on the run. -/
theorem kbd_caps_lock_parity {s s' : KbdSys τ} {es : List (KbdEvent τ)}
    (h : kbdRun s es = some s') :
    s'.kbd.capsLock =
      if es.countP KbdEvent.pressesCaps % 2 = 0 then s.kbd.capsLock else !s.kbd.capsLock := by
  induction es generalizing s with
  | nil =>
    rw [kbdRun, Option.some.injEq] at h
    simp [← h]
  | cons e es ih =>
    obtain ⟨s₁, h₁, hrun⟩ := kbdRun_cons h
    rw [ih hrun, KbdSys.kbdStep_capsLock h₁, List.countP_cons]
    cases e.pressesCaps
    · simp
    · -- one more press flips the parity of the count
      have hflip : (es.countP KbdEvent.pressesCaps + 1) % 2 = 0 ↔
          ¬es.countP KbdEvent.pressesCaps % 2 = 0 := by
        omega
      simp only [if_true, hflip]
      split_ifs <;> simp

/-- At boot, Caps Lock pressed, released and pressed again. -/
theorem kbd_caps_lock_parity_boot :
    ∃ s', kbdRun (kbdStart (intqBoot : Intq ℕ) intqBoot)
        [.scancode 0x3a 0, .scancode 0xba 0, .scancode 0x3a 0] = some s' ∧
      s'.kbd.capsLock =
        if ([.scancode 0x3a 0, .scancode 0xba 0, .scancode 0x3a 0] : List (KbdEvent ℕ)).countP
            KbdEvent.pressesCaps % 2 = 0
        then (kbdStart (intqBoot : Intq ℕ) intqBoot).kbd.capsLock else !(kbdStart (intqBoot : Intq ℕ) intqBoot).kbd.capsLock := by
  have hrun : (kbdRun (kbdStart (intqBoot : Intq ℕ) intqBoot)
      [.scancode 0x3a 0, .scancode 0xba 0, .scancode 0x3a 0]).isSome := by
    decide
  obtain ⟨s', hs'⟩ := Option.isSome_iff_exists.mp hrun
  exact ⟨s', hs', kbd_caps_lock_parity hs'⟩

/-- **The keyboard interrupt never fails, and feeds the serial system only key events.** From
every state some interleaving of interrupts and calls reaches, the keyboard interrupt returns,
whatever the controller presents: `input_putc`'s assertion holds. What it does to the serial
system is that system's key event, or nothing. -/
theorem keyboard_interrupt_returns {s : KbdSys τ} (h : KbdReachable s) (first second : UInt8) :
    ∃ s', s.kbdStep (.scancode first second) = some s' ∧
      (s'.serial = s.serial ∨ ∃ c, s.serial.serialStep (.key c) = some s'.serial) := by
  obtain ⟨s', hs'⟩ :=
    Option.isSome_iff_exists.mp (KbdSys.keyboardInterrupt_isSome h.serial.inv first second)
  refine ⟨s', hs', ?_⟩
  rcases KbdSys.keyboardInterrupt_serial hs' with ⟨hserial, -⟩ | ⟨c, hfull, hput, -⟩
  · exact .inl hserial
  · exact .inr ⟨c, SerialSys.serialStep_key_of_inputPutc hfull hput⟩

/-- At boot, the `Q` key pressed. -/
theorem keyboard_interrupt_returns_boot :
    KbdReachable (kbdStart (intqBoot : Intq ℕ) intqBoot) ∧
      ∃ s', (kbdStart (intqBoot : Intq ℕ) intqBoot).kbdStep (.scancode 0x10 0) = some s' ∧
        (s'.serial = (kbdStart (intqBoot : Intq ℕ) intqBoot).serial ∨
          ∃ c, (kbdStart (intqBoot : Intq ℕ) intqBoot).serial.serialStep (.key c) = some s'.serial) :=
  ⟨.init _ _, keyboard_interrupt_returns (.init _ _) 0x10 0⟩

/-- **`key_cnt` counts the characters put in the input buffer.** Over every run of keyboard
interrupts, the input buffer's log grows by some keys and `key_cnt` by their number: a
release, Caps Lock, a shift key or a press on a full buffer counts nothing, although
`key_cnt` is documented as the keys pressed. The induction is on the run. -/
theorem kbd_key_cnt_counts_buffered {s s' : KbdSys τ} {bytes : List (UInt8 × UInt8)}
    (h : kbdRun s (bytes.map fun b => .scancode b.1 b.2) = some s') :
    ∃ keys, s'.serial.buffer.puts = s.serial.buffer.puts ++ keys ∧
      s'.kbd.keyCnt = s.kbd.keyCnt + keys.length := by
  induction bytes generalizing s with
  | nil =>
    rw [List.map_nil, kbdRun, Option.some.injEq] at h
    exact ⟨[], by rw [h, List.append_nil], by rw [h, List.length_nil, Nat.add_zero]⟩
  | cons b bytes ih =>
    obtain ⟨s₁, h₁, hrun⟩ := kbdRun_cons h
    obtain ⟨keys, hputs, hcnt⟩ := ih hrun
    rcases KbdSys.keyboardInterrupt_serial h₁ with ⟨hserial, hk⟩ | ⟨c, -, hput, hk⟩
    · exact ⟨keys, by rw [hputs, hserial], by rw [hcnt, hk]⟩
    · refine ⟨c :: keys, ?_, ?_⟩
      · rw [hputs, SerialSys.inputPutc_puts hput, List.append_assoc, List.singleton_append]
      · rw [hcnt, hk, List.length_cons]
        omega

/-- At boot, Left Shift pressed and `Q` typed: one key counted, the capital. -/
theorem kbd_key_cnt_counts_buffered_boot :
    ∃ s', kbdRun (kbdStart (intqBoot : Intq ℕ) intqBoot)
        ([(0x2a, 0), (0x10, 0)].map fun b => .scancode b.1 b.2) = some s' ∧
      ∃ keys, s'.serial.buffer.puts = (kbdStart (intqBoot : Intq ℕ) intqBoot).serial.buffer.puts ++ keys ∧
        s'.kbd.keyCnt = (kbdStart (intqBoot : Intq ℕ) intqBoot).kbd.keyCnt + keys.length := by
  have hrun : (kbdRun (kbdStart (intqBoot : Intq ℕ) intqBoot)
      ([(0x2a, 0), (0x10, 0)].map fun b => .scancode b.1 b.2)).isSome := by
    decide
  obtain ⟨s', hs'⟩ := Option.isSome_iff_exists.mp hrun
  exact ⟨s', hs', kbd_key_cnt_counts_buffered hs'⟩

/-- **Letter keys and their modifiers.** From every reachable state, a press of a key whose
character is a capital, with room in the input buffer, puts one character in the buffer: with
a Ctrl key down its control code, `c - 0x40`, whatever Shift and Caps Lock; otherwise the
capital when exactly one of Shift and Caps Lock is on and the small letter, `c + 0x20`, when
both or neither are. Alt adds the high bit. -/
theorem keyboard_letter_case {s : KbdSys τ} (h : KbdReachable s) {first second c : UInt8}
    (hpress : isRelease (readCode first second) = false)
    (hc : s.kbd.keyChar (keyCode (readCode first second)) = some c) (hletter : isupper c = true)
    (hroom : intqFull s.serial.buffer.q = false) :
    ∃ s', s.kbdStep (.scancode first second) = some s' ∧
      s'.serial.buffer.puts = s.serial.buffer.puts ++
        [(if s.kbd.alt then 0x80 else 0) +
          (if s.kbd.ctrl then c - 0x40 else if s.kbd.shift != s.kbd.capsLock then c else c + 0x20)] := by
  obtain ⟨s', hs'⟩ :=
    Option.isSome_iff_exists.mp (KbdSys.keyboardInterrupt_isSome h.serial.inv first second)
  refine ⟨s', hs', ?_⟩
  -- the interrupt took the branch of an ordinary character pressed on a buffer with room
  rcases KbdSys.keyboardInterrupt_eq_some hs' with
    ⟨hcaps, -⟩ | ⟨c', hc', ⟨hrel | hfull, -⟩ | ⟨-, -, hput, -⟩⟩ | ⟨hnone, -⟩
  · exact absurd hcaps (Kbd.ne_caps_of_keyChar hc)
  · rw [hpress] at hrel
    cases hrel
  · rw [hroom] at hfull
    cases hfull
  · rw [hc, Option.some.injEq] at hc'
    rw [SerialSys.inputPutc_puts hput, ← hc', Kbd.pressChar_of_isupper _ hletter]
  · rw [hc] at hnone
    cases hnone

/-- At boot, the `Q` key pressed: neither Shift nor Caps Lock, so `q`. -/
theorem keyboard_letter_case_boot :
    KbdReachable (kbdStart (intqBoot : Intq ℕ) intqBoot) ∧ isRelease (readCode 0x10 0) = false ∧
      (kbdStart (intqBoot : Intq ℕ) intqBoot).kbd.keyChar (keyCode (readCode 0x10 0)) = some 0x51 ∧ isupper 0x51 = true ∧
      intqFull (kbdStart (intqBoot : Intq ℕ) intqBoot).serial.buffer.q = false ∧
      ∃ s', (kbdStart (intqBoot : Intq ℕ) intqBoot).kbdStep (.scancode 0x10 0) = some s' ∧
        s'.serial.buffer.puts = (kbdStart (intqBoot : Intq ℕ) intqBoot).serial.buffer.puts ++
          [(if (kbdStart (intqBoot : Intq ℕ) intqBoot).kbd.alt then 0x80 else 0) +
            (if (kbdStart (intqBoot : Intq ℕ) intqBoot).kbd.ctrl then 0x51 - 0x40
              else if (kbdStart (intqBoot : Intq ℕ) intqBoot).kbd.shift != (kbdStart (intqBoot : Intq ℕ) intqBoot).kbd.capsLock then 0x51 else 0x51 + 0x20)] :=
  ⟨.init _ _, by decide, by decide, by decide, by decide,
    keyboard_letter_case (.init _ _) (by decide) (by decide) (by decide) (by decide)⟩

end Devices

end TinyOs
