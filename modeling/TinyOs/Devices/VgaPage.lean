import TinyOs.Devices.Vga

/-!
What the VGA display is for: the text is written onto an unbounded page of rows, and the
screen shows a window of `ROW_CNT` rows of it that follows the cursor down. Scrolling, the
`memmove` and `clear_row` of `newline`, is the window moving down one row; `cls` moves it past
every row written. The page keeps its rows below the window blank, which is what makes the row
that scrolling clears the next row of the page.

* `Page`: the page, with rows below the window blank and the cursor's row in the window;
* `Shows`: the framebuffer is the window, and the cursor is the page's cursor;
* `vga_putc_shows_page`: every run of `vga_putc` from boot shows the window of the page that
  the same text writes.
-/

namespace TinyOs

namespace Devices

/-- A row of blanks. -/
def blankRow : Row := fun _ => Cell.blank

/-- A page: its rows, the first row of the window, and the cursor `(col, row)` in page
coordinates. Rows below the window are blank, and the cursor's row is in the window. -/
structure Page where
  rows : ℕ → Row
  top : ℕ
  col : ℕ
  row : ℕ
  below : ∀ k, top + rowCnt ≤ k → rows k = blankRow
  rowIn : top ≤ row ∧ row < top + rowCnt

namespace Page

/-- The rows the screen shows. -/
def window (p : Page) : Fin rowCnt → Row := fun y => p.rows (p.top + y)

/-- A new line: the cursor to the first column of the next row, with the window moved down
one row when the cursor leaves it. -/
def newline (p : Page) : Page :=
  if h : p.row + 1 < p.top + rowCnt then
    { p with col := 0, row := p.row + 1, rowIn := ⟨by have := p.rowIn; omega, h⟩ }
  else
    { p with
      col := 0
      row := p.row + 1
      top := p.top + 1
      below := fun k hk => p.below k (by omega)
      rowIn := by have := p.rowIn; omega }

/-- A character written at the cursor, which is in the window. -/
def write (p : Page) (c : UInt8) : Page :=
  if h : p.col < colCnt then
    { p with
      rows := Function.update p.rows p.row
        (Function.update (p.rows p.row) ⟨p.col, h⟩ ⟨c, grayOnBlack⟩)
      below := fun k hk => by
        rw [Function.update_of_ne (by have := p.rowIn; omega)]
        exact p.below k hk }
  else p

/-- A form feed: the window moved past every row written, onto blank rows. -/
def cls (p : Page) : Page :=
  { p with
    top := p.top + rowCnt
    col := 0
    row := p.top + rowCnt
    below := fun k hk => p.below k (by omega)
    rowIn := ⟨le_refl _, by simp [rowCnt]⟩ }

@[simp] lemma write_top (p : Page) (c : UInt8) : (p.write c).top = p.top := by
  unfold write; split_ifs <;> rfl

@[simp] lemma write_col (p : Page) (c : UInt8) : (p.write c).col = p.col := by
  unfold write; split_ifs <;> rfl

@[simp] lemma write_row (p : Page) (c : UInt8) : (p.write c).row = p.row := by
  unfold write; split_ifs <;> rfl

/-- The cursor moved within its row. -/
def setCol (p : Page) (x : ℕ) : Page := { p with col := x }

/-- A new line when the column has left the screen. -/
def wrap (p : Page) : Page := if colCnt ≤ p.col then p.newline else p

/-- A byte of text written onto the page: the control characters of `vga_putc`, and any
other byte written at the cursor. -/
def putc (p : Page) (c : UInt8) : Page :=
  if c = 10 then p.newline
  else if c = 12 then p.cls
  else if c = 8 then (if 0 < p.col then p.setCol (p.col - 1) else p)
  else if c = 13 then p.setCol 0
  else if c = 9 then (p.setCol ((p.col + 1 + 8 - 1) / 8 * 8)).wrap
  else ((p.write c).setCol (p.col + 1)).wrap

/-- The page a text writes. -/
def run (p : Page) (cs : List UInt8) : Page := cs.foldl putc p

/-- The rows of the page at boot: those on the screen, then blank rows. -/
def bootRows (v : Vga) (k : ℕ) : Row := if h : k < rowCnt then v.fb ⟨k, h⟩ else blankRow

lemma bootRows_below (v : Vga) (k : ℕ) (hk : 0 + rowCnt ≤ k) : bootRows v k = blankRow :=
  dif_neg (by omega)

lemma bootRow_lt {v : Vga} (hw : v.hwCursor < colCnt * rowCnt) :
    v.hwCursor / colCnt < 0 + rowCnt := by
  simp only [colCnt, rowCnt] at hw ⊢
  omega

/-- The page at boot: the rows on the screen, blank rows below, and the cursor where the
hardware cursor is. -/
def boot (v : Vga) (hw : v.hwCursor < colCnt * rowCnt) : Page where
  rows := bootRows v
  top := 0
  col := v.hwCursor % colCnt
  row := v.hwCursor / colCnt
  below := bootRows_below v
  rowIn := ⟨Nat.zero_le _, bootRow_lt hw⟩

end Page

/-! ### The display shows the page -/

/-- The framebuffer is the window of the page and the cursor is the page's cursor, in screen
coordinates. -/
structure Agrees (v : Vga) (p : Page) : Prop where
  fb : v.fb = p.window
  col : v.cx = p.col
  row : p.row = p.top + v.cy

/-- What the display shows of a page: its window, and its cursor, which is the hardware cursor
until `init` has read it. -/
structure Shows (v : Vga) (p : Page) : Prop where
  fb : v.fb = p.window
  cursor : v.inited = true → v.cx = p.col ∧ p.row = p.top + v.cy
  boot : v.inited = false → p.col = v.hwCursor % colCnt ∧ p.row = p.top + v.hwCursor / colCnt

namespace Agrees

variable {v : Vga} {p : Page}

lemma setCol (h : Agrees v p) (x : ℕ) : Agrees { v with cx := x } (p.setCol x) :=
  ⟨h.fb, rfl, h.row⟩

/-- A new line keeps the display on the page. Past the last row the framebuffer scrolls while
the page's window moves down: the row `clear_row` blanks is the row of the page below the
window. -/
lemma newline (h : Agrees v p) : Agrees v.newline p.newline := by
  have hrow := h.row
  unfold Vga.newline Page.newline
  split_ifs with hlast hin
  · omega
  · -- the scroll: each row takes the one below it, the last row is the page's next row
    have hin := p.rowIn
    simp only [rowCnt] at hlast hin
    refine ⟨funext fun y => ?_, rfl, by simp only [rowCnt]; omega⟩
    simp only [Page.window, clearRow]
    by_cases hy : y = lastRow
    · subst hy
      rw [Function.update_self]
      exact (p.below _ (show p.top + rowCnt ≤ p.top + 1 + (rowCnt - 1) by
        simp only [rowCnt]; omega)).symm
    · have hne : y.val ≠ rowCnt - 1 := fun he => hy (Fin.ext he)
      have hlt : y.val + 1 < rowCnt := by
        have := y.isLt
        simp only [rowCnt] at hne this ⊢
        omega
      rw [Function.update_of_ne hy]
      simp only [scrollUp, dif_pos hlt, h.fb, Page.window]
      congr 1
      omega
  · exact ⟨h.fb, rfl, by dsimp only; omega⟩
  · omega

lemma wrap (h : Agrees v p) : Agrees v.wrapLine p.wrap := by
  unfold Vga.wrapLine Page.wrap
  rw [h.col]
  split_ifs
  · exact h.newline
  · exact h

/-- `cls` blanks the framebuffer, and the page's next window is blank, whatever either
showed before. -/
lemma cls (v : Vga) (p : Page) : Agrees v.cls p.cls := by
  refine ⟨funext fun y => ?_, rfl, by simp [Vga.cls, Vga.moveCursor, Page.cls]⟩
  exact (p.below _ (show p.top + rowCnt ≤ p.top + rowCnt + y by omega)).symm

/-- A character stored at the cursor is written at the page's cursor. -/
lemma store (h : Agrees v p) (hx : v.cx < colCnt) (hy : v.cy < rowCnt) (c : UInt8) :
    ∃ v', v.store c = some v' ∧ Agrees v' (p.write c) := by
  have hcol : p.col < colCnt := h.col ▸ hx
  refine ⟨_, Vga.store_eq hx hy c, ?_, by simpa using h.col, by simpa using h.row⟩
  funext y
  simp only [Page.write, dif_pos hcol, Page.window]
  by_cases hyc : y = ⟨v.cy, hy⟩
  · subst hyc
    have hrow : p.top + v.cy = p.row := h.row.symm
    simp only [Function.update_self, hrow, h.col, h.fb, Page.window]
  · have hrow : p.top + y ≠ p.row := by
      rw [h.row]
      simpa [Fin.ext_iff] using hyc
    rw [Function.update_of_ne hyc, Function.update_of_ne hrow, h.fb]
    rfl

/-- On a display whose cursor is on the screen, every case of `vga_putc` writes the byte onto
the page. -/
lemma putcCase (h : Agrees v p) (hx : v.cx < colCnt) (hy : v.cy < rowCnt) (c : UInt8) :
    ∃ v', v.putcCase c = some v' ∧ Agrees v' (p.putc c) := by
  unfold Vga.putcCase Page.putc
  -- the page's cursor is the display's, so both dispatch the same way
  rw [← h.col]
  split_ifs with h10 h12 h8 hcx h13 h9
  · exact ⟨_, rfl, h.newline⟩
  · exact ⟨_, rfl, Agrees.cls v p⟩
  · exact ⟨_, rfl, h.setCol _⟩
  · exact ⟨_, rfl, h⟩
  · exact ⟨_, rfl, h.setCol 0⟩
  · exact ⟨_, rfl, (h.setCol _).wrap⟩
  · obtain ⟨v₁, hstore, h₁⟩ := h.store hx hy c
    have hcx : v₁.cx = v.cx := by rw [h₁.col, Page.write_col, h.col]
    rw [hstore, Option.map_some, hcx]
    exact ⟨_, rfl, (h₁.setCol (v.cx + 1)).wrap⟩

end Agrees

namespace Shows

variable {v : Vga} {p : Page}

/-- After `init` the display's cursor is the page's. -/
lemma init (h : Shows v p) : Agrees v.init p := by
  unfold Vga.init
  split_ifs with hi
  · obtain ⟨hx, hy⟩ := h.cursor hi
    exact ⟨h.fb, hx, hy⟩
  · obtain ⟨hx, hy⟩ := h.boot (by simpa using hi)
    exact ⟨h.fb, hx.symm, hy⟩

lemma of_agrees (h : Agrees v p) (hi : v.inited = true) : Shows v p :=
  ⟨h.fb, fun _ => ⟨h.col, h.row⟩, fun hb => absurd (hi ▸ hb) (by decide)⟩

/-- `vga_putc` writes its byte onto the page. -/
lemma vgaPutc (h : Shows v p) (hok : CursorOk v) (c : UInt8) :
    ∃ v', v.vgaPutc c = some v' ∧ Shows v' (p.putc c) ∧ CursorOk v' := by
  obtain ⟨hi, hx, hy⟩ := Vga.init_onScreen hok
  obtain ⟨v₁, hcase, h₁⟩ := h.init.putcCase hx hy c
  obtain ⟨v', hput, hok', hi'⟩ := Vga.vgaPutc_cursorOk hok c
  have hv' : v' = v₁.moveCursor := by
    rw [Vga.vgaPutc, hcase, Option.map_some] at hput
    exact (Option.some.inj hput).symm
  subst hv'
  exact ⟨_, hput, of_agrees ⟨h₁.fb, h₁.col, h₁.row⟩ hi', hok'⟩

/-- Every run of `vga_putc` shows the page the text writes. The induction is on the text. -/
lemma vgaRun (h : Shows v p) (hok : CursorOk v) (cs : List UInt8) :
    ∃ v', Devices.vgaRun v cs = some v' ∧ Shows v' (p.run cs) ∧ CursorOk v' := by
  induction cs generalizing v p with
  | nil => exact ⟨v, rfl, h, hok⟩
  | cons c cs ih =>
    obtain ⟨v₁, h₁, hs₁, hok₁⟩ := h.vgaPutc hok c
    obtain ⟨v', hrun, hs', hok'⟩ := ih hs₁ hok₁
    exact ⟨v', by rw [Devices.vgaRun, h₁, Option.bind_some, hrun], hs', hok'⟩

end Shows

/-- At boot the display shows the boot page. -/
lemma shows_boot {v : Vga} (hboot : v.inited = false) (hw : v.hwCursor < colCnt * rowCnt) :
    Shows v (Page.boot v hw) where
  fb := funext fun y => by simp [Page.window, Page.boot, Page.bootRows]
  cursor hi := absurd (hboot ▸ hi) (by decide)
  boot _ := ⟨rfl, by simp [Page.boot]⟩

/-- **The display shows the page.** From boot, with the hardware cursor on the screen, every
run of `vga_putc` ends with the framebuffer showing the window of the page that the same text
writes from the boot screen, and, once `init` has run, with the cursor at the page's cursor. -/
theorem vga_putc_shows_page {v : Vga} (hboot : v.inited = false)
    (hw : v.hwCursor < colCnt * rowCnt) (cs : List UInt8) :
    ∃ v', vgaRun v cs = some v' ∧ v'.fb = ((Page.boot v hw).run cs).window ∧
      (v'.inited = true → v'.cx = ((Page.boot v hw).run cs).col ∧
        ((Page.boot v hw).run cs).row = ((Page.boot v hw).run cs).top + v'.cy) := by
  have hok : CursorOk v := ⟨hw, fun hi => absurd (hboot ▸ hi) (by decide)⟩
  obtain ⟨v', hrun, hs, -⟩ := (shows_boot hboot hw).vgaRun hok cs
  exact ⟨v', hrun, hs.fb, hs.cursor⟩

/-- A blank boot screen with the hardware cursor on the last row, and a text that scrolls it. -/
theorem vga_putc_shows_page_scrolls :
    ∃ v', vgaRun ⟨false, 0, 0, fun _ _ => Cell.blank, 1990⟩ [72, 10, 105] = some v' ∧
      v'.fb = ((Page.boot ⟨false, 0, 0, fun _ _ => Cell.blank, 1990⟩ (by decide)).run
        [72, 10, 105]).window ∧
      (v'.inited = true →
        v'.cx = ((Page.boot ⟨false, 0, 0, fun _ _ => Cell.blank, 1990⟩ (by decide)).run
          [72, 10, 105]).col ∧
        ((Page.boot ⟨false, 0, 0, fun _ _ => Cell.blank, 1990⟩ (by decide)).run [72, 10, 105]).row =
          ((Page.boot ⟨false, 0, 0, fun _ _ => Cell.blank, 1990⟩ (by decide)).run
            [72, 10, 105]).top + v'.cy) :=
  vga_putc_shows_page rfl (by decide) _

end Devices

end TinyOs
