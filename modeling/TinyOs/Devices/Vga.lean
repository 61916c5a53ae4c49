import Mathlib.Logic.Function.Basic
import Mathlib.Data.Fin.Basic
import Mathlib.Algebra.Group.Nat.Defs

/-!
The VGA text display, `devices/vga.c`: a framebuffer of `ROW_CNT` rows of `COL_CNT` character
cells and a cursor `(cx, cy)`. On its first call `vga_putc` reads the cursor from the hardware
cursor register; it then writes a character at the cursor and advances it, interpreting newline,
form feed, backspace, carriage return and tab, and scrolls the screen up one row when the
cursor leaves the last row. Every call ends by writing the cursor back to the hardware. A
character stored outside the framebuffer, which C does not check, is `none`.

* `CursorOk`, `vgaPutc_cursorOk`: with the hardware cursor on the screen at boot, every call
  keeps the cursor on the screen and the hardware cursor on it;
* `vga_putc_on_screen`: every run of `vga_putc` from such a boot state stores every character
  inside the framebuffer and ends with the cursor on the screen.
-/

namespace TinyOs

namespace Devices

/-- `COL_CNT`. -/
def colCnt : ℕ := 80

/-- `ROW_CNT`. -/
def rowCnt : ℕ := 25

/-- `GRAY_ON_BLACK`. -/
def grayOnBlack : UInt8 := 0x07

/-- A cell of the framebuffer: the character `fb[y][x][0]` and its attribute `fb[y][x][1]`. -/
structure Cell where
  ch : UInt8
  attr : UInt8
  deriving DecidableEq

/-- A space, gray on black: what `clear_row` writes. -/
def Cell.blank : Cell := ⟨32, grayOnBlack⟩

/-- A row of the display. -/
abbrev Row := Fin colCnt → Cell

/-- The display: whether `init` has run, the cursor, the framebuffer, and the hardware cursor
register, the position `cp` that `move_cursor` writes and `find_cursor` reads. -/
structure Vga where
  inited : Bool
  cx : ℕ
  cy : ℕ
  fb : Fin rowCnt → Row
  hwCursor : ℕ

/-- The last row. -/
def lastRow : Fin rowCnt := ⟨rowCnt - 1, by decide⟩

/-- `clear_row (y)`: every cell of row `y` a blank. -/
def clearRow (fb : Fin rowCnt → Row) (y : Fin rowCnt) : Fin rowCnt → Row :=
  Function.update fb y fun _ => Cell.blank

/-- `memmove (&fb[0], &fb[1], sizeof fb[0] * (ROW_CNT - 1))`: each row but the last takes the
row below it; the last keeps its cells. -/
def scrollUp (fb : Fin rowCnt → Row) : Fin rowCnt → Row :=
  fun y => if h : y.val + 1 < rowCnt then fb ⟨y.val + 1, h⟩ else fb y

namespace Vga

/-- `init ()`: on the first call, the cursor read from the hardware by `find_cursor`,
`cp % COL_CNT` and `cp / COL_CNT`. -/
def init (v : Vga) : Vga :=
  if v.inited then v
  else { v with cx := v.hwCursor % colCnt, cy := v.hwCursor / colCnt, inited := true }

/-- `move_cursor ()`: the cursor written to the hardware as the 16-bit `cx + COL_CNT * cy`. -/
def moveCursor (v : Vga) : Vga :=
  { v with hwCursor := (v.cx + colCnt * v.cy) % 2 ^ 16 }

/-- `cls ()`: the loop of `clear_row` over every row, the cursor to the upper left. -/
def cls (v : Vga) : Vga :=
  moveCursor { v with fb := fun _ _ => Cell.blank, cx := 0, cy := 0 }

/-- `newline ()`: the cursor to the first column of the next row; past the last row the screen
scrolls up one row, the last row cleared, and the cursor stays on the last row. -/
def newline (v : Vga) : Vga :=
  if rowCnt ≤ v.cy + 1 then
    { v with cx := 0, cy := rowCnt - 1, fb := clearRow (scrollUp v.fb) lastRow }
  else { v with cx := 0, cy := v.cy + 1 }

/-- `fb[cy][cx][0] = c; fb[cy][cx][1] = GRAY_ON_BLACK;`: inside the framebuffer the cell is
written; outside it C writes past the array, which is `none`. -/
def store (v : Vga) (c : UInt8) : Option Vga :=
  if h : v.cy < rowCnt ∧ v.cx < colCnt then
    some { v with
      fb := Function.update v.fb ⟨v.cy, h.1⟩
        (Function.update (v.fb ⟨v.cy, h.1⟩) ⟨v.cx, h.2⟩ ⟨c, grayOnBlack⟩) }
  else none

/-- The cursor `cx` after `++cx` or a tab: at `COL_CNT` or past it, `newline`. -/
def wrapLine (v : Vga) : Vga := if colCnt ≤ v.cx then v.newline else v

/-- The cases of `vga_putc` on an initialised display. -/
def putcCase (v : Vga) (c : UInt8) : Option Vga :=
  if c = 10 then some v.newline
  else if c = 12 then some v.cls
  else if c = 8 then some (if 0 < v.cx then { v with cx := v.cx - 1 } else v)
  else if c = 13 then some { v with cx := 0 }
  else if c = 9 then some { v with cx := (v.cx + 1 + 8 - 1) / 8 * 8 }.wrapLine
  else (v.store c).map fun v => { v with cx := v.cx + 1 }.wrapLine

/-- `vga_putc (c)` with the byte `c` that `putchar_have_lock` passes: `init`, the case of `c`
(`'\n'`, `'\f'`, `'\b'`, `'\r'`, `'\t'`, or a character to store), `move_cursor`. -/
def vgaPutc (v : Vga) (c : UInt8) : Option Vga :=
  (v.init.putcCase c).map moveCursor

end Vga

/-- `vga_putc` of each byte in turn. -/
def vgaRun (v : Vga) : List UInt8 → Option Vga
  | [] => some v
  | c :: cs => (v.vgaPutc c).bind fun v => vgaRun v cs

/-! ### The cursor stays on the screen -/

/-- The hardware cursor is on the screen, and once `init` has run the cursor is on the screen
and the hardware cursor is at it. -/
structure CursorOk (v : Vga) : Prop where
  hw : v.hwCursor < colCnt * rowCnt
  cursor : v.inited = true → v.cx < colCnt ∧ v.cy < rowCnt ∧ v.hwCursor = v.cx + colCnt * v.cy

namespace Vga

/-- `init` reads a cursor on the screen from a hardware cursor on the screen. -/
lemma init_onScreen {v : Vga} (h : CursorOk v) :
    v.init.inited = true ∧ v.init.cx < colCnt ∧ v.init.cy < rowCnt := by
  unfold init
  split_ifs with hi
  · obtain ⟨hx, hy, -⟩ := h.cursor hi
    exact ⟨hi, hx, hy⟩
  · have hw := h.hw
    refine ⟨rfl, Nat.mod_lt _ (by decide), ?_⟩
    simp only [colCnt, rowCnt] at hw ⊢
    omega

/-- `newline` leaves the cursor at the start of a row on the screen, from any row: past the last
row the screen scrolls. -/
lemma newline_onScreen (v : Vga) :
    v.newline.cx = 0 ∧ v.newline.cy < rowCnt ∧ v.newline.inited = v.inited := by
  unfold newline
  split_ifs with hlast
  · exact ⟨rfl, by simp [rowCnt], rfl⟩
  · exact ⟨rfl, by dsimp only; omega, rfl⟩

/-- `wrapLine` leaves the column on the screen, whatever it was: at `COL_CNT` or past it the
cursor goes to the next line. -/
lemma wrapLine_onScreen {v : Vga} (hy : v.cy < rowCnt) :
    v.wrapLine.cx < colCnt ∧ v.wrapLine.cy < rowCnt ∧ v.wrapLine.inited = v.inited := by
  unfold wrapLine
  split_ifs with hwrap
  · obtain ⟨hx', hy', hi⟩ := newline_onScreen v
    exact ⟨hx' ▸ by decide, hy', hi⟩
  · exact ⟨Nat.lt_of_not_le hwrap, hy, rfl⟩

/-- A character is stored at a cursor on the screen. -/
lemma store_eq {v : Vga} (hx : v.cx < colCnt) (hy : v.cy < rowCnt) (c : UInt8) :
    v.store c = some { v with
      fb := Function.update v.fb ⟨v.cy, hy⟩
        (Function.update (v.fb ⟨v.cy, hy⟩) ⟨v.cx, hx⟩ ⟨c, grayOnBlack⟩) } := by
  rw [store, dif_pos ⟨hy, hx⟩]

/-- On a display whose cursor is on the screen, every case of `vga_putc` goes on and leaves the
cursor on the screen. -/
lemma putcCase_onScreen {v : Vga} (hx : v.cx < colCnt) (hy : v.cy < rowCnt) (c : UInt8) :
    ∃ v', v.putcCase c = some v' ∧ v'.cx < colCnt ∧ v'.cy < rowCnt ∧ v'.inited = v.inited := by
  unfold putcCase
  split_ifs with h10 h12 h8 hcx h13 h9
  · obtain ⟨hx', hy', hi⟩ := newline_onScreen v
    exact ⟨_, rfl, hx' ▸ by decide, hy', hi⟩
  · exact ⟨_, rfl, by simp [cls, moveCursor, colCnt], by simp [cls, moveCursor, rowCnt], rfl⟩
  · exact ⟨_, rfl, by dsimp only; omega, hy, rfl⟩
  · exact ⟨_, rfl, hx, hy, rfl⟩
  · exact ⟨_, rfl, by simp [colCnt], hy, rfl⟩
  · exact ⟨_, rfl, wrapLine_onScreen (v := { v with cx := _ }) hy⟩
  · rw [store_eq hx hy, Option.map_some]
    exact ⟨_, rfl, wrapLine_onScreen (v := { v with cx := v.cx + 1, fb := _ }) hy⟩

/-- `move_cursor` writes a cursor on the screen to the hardware as it is. -/
lemma moveCursor_cursorOk {v : Vga} (hx : v.cx < colCnt)
    (hy : v.cy < rowCnt) : CursorOk v.moveCursor := by
  have hlt : v.cx + colCnt * v.cy < colCnt * rowCnt := by
    simp only [colCnt, rowCnt] at hx hy ⊢
    omega
  have hmod : (v.cx + colCnt * v.cy) % 2 ^ 16 = v.cx + colCnt * v.cy :=
    Nat.mod_eq_of_lt (lt_trans hlt (by decide))
  refine ⟨?_, fun _ => ⟨hx, hy, ?_⟩⟩
  · show (v.cx + colCnt * v.cy) % 2 ^ 16 < colCnt * rowCnt
    rw [hmod]
    exact hlt
  · exact hmod

/-- **`vga_putc` keeps the cursor on the screen.** From a display whose hardware cursor is on
the screen, `vga_putc` of any byte stores inside the framebuffer and leaves the cursor on the
screen, with the hardware cursor at it. -/
theorem vgaPutc_cursorOk {v : Vga} (h : CursorOk v) (c : UInt8) :
    ∃ v', v.vgaPutc c = some v' ∧ CursorOk v' ∧ v'.inited = true := by
  obtain ⟨hi, hx, hy⟩ := init_onScreen h
  obtain ⟨v', hcase, hx', hy', hi'⟩ := putcCase_onScreen hx hy c
  refine ⟨v'.moveCursor, by rw [vgaPutc, hcase, Option.map_some], ?_, hi'.trans hi⟩
  exact moveCursor_cursorOk hx' hy'

end Vga

/-- Every run of `vga_putc` keeps the cursor on the screen. The induction is on the text. -/
lemma vgaRun_cursorOk {v : Vga} (h : CursorOk v) :
    ∀ cs, ∃ v', vgaRun v cs = some v' ∧ CursorOk v'
  | [] => ⟨v, rfl, h⟩
  | c :: cs => by
    obtain ⟨v₁, h₁, hok, -⟩ := Vga.vgaPutc_cursorOk h c
    obtain ⟨v', hrun, hok'⟩ := vgaRun_cursorOk hok cs
    exact ⟨v', by rw [vgaRun, h₁, Option.bind_some, hrun], hok'⟩

/-- **`vga_putc` stays on the screen.** From boot, with the hardware cursor on the screen,
`vga_putc` of every byte of any text stores every character inside the framebuffer, and leaves
the cursor on the screen with the hardware cursor at it. -/
theorem vga_putc_on_screen {v : Vga} (hboot : v.inited = false)
    (hw : v.hwCursor < colCnt * rowCnt) (cs : List UInt8) :
    ∃ v', vgaRun v cs = some v' ∧ v'.hwCursor < colCnt * rowCnt ∧
      (v'.inited = true → v'.cx < colCnt ∧ v'.cy < rowCnt ∧
        v'.hwCursor = v'.cx + colCnt * v'.cy) := by
  obtain ⟨v', hrun, hok⟩ := vgaRun_cursorOk ⟨hw, fun hi => absurd (hboot ▸ hi) (by decide)⟩ cs
  exact ⟨v', hrun, hok.hw, hok.cursor⟩

/-- A blank boot screen with the hardware cursor on the last row, and a text that scrolls it. -/
theorem vga_putc_on_screen_scrolls :
    ∃ v', vgaRun ⟨false, 0, 0, fun _ _ => Cell.blank, 1990⟩ [72, 10, 105] = some v' ∧
      v'.hwCursor < colCnt * rowCnt ∧
      (v'.inited = true → v'.cx < colCnt ∧ v'.cy < rowCnt ∧
        v'.hwCursor = v'.cx + colCnt * v'.cy) :=
  vga_putc_on_screen rfl (by decide) _

end Devices

end TinyOs
