/-
The terminal.

`kernel/tty.cpp` keeps the 25 rows that are written to, a ring of the last 256 rows that went off
the top, and how far the view is scrolled back into them; what is on the screen is a third array,
the VGA buffer, to which characters are written as they come and which is drawn anew when the
view moves.  The model follows its functions.  A view offset that leaves the range of an `int` is
an overflow, which C leaves undefined: there is no value then.
-/
import Eke.Lib.Loop
import Mathlib.Algebra.Ring.Int.Defs
import Mathlib.Algebra.Ring.Nat

namespace Eke

def VGA_WIDTH : Nat := 80

def VGA_HEIGHT : Nat := 25

def SCROLLBACK_LINES : Nat := 256

/-- A character with its color. -/
abbrev Cell := BitVec 16

/-- `live_screen` and `history` are rows of cells. -/
abbrev Rows := Nat → Nat → Cell

/-- `(unsigned short)c | ((unsigned short)color << 8)`, where `char` is signed. -/
def vga_entry (c color : BitVec 8) : Cell := c.signExtend 16 ||| color.setWidth 16 <<< 8

/-- The static variables of `tty.cpp`, the VGA buffer and the position of the hardware cursor. -/
structure Tty where
  VGA_BUFFER : Nat → Cell
  cursor : Nat
  terminal_row : Nat
  terminal_column : Nat
  terminal_color : BitVec 8
  live_screen : Rows
  history : Rows
  history_count : Nat
  history_head : Nat
  scroll_offset : Int

/-- `a[y][x] = v`. -/
def setCell (a : Rows) (y x : Nat) (v : Cell) : Rows := fun j i => if j = y ∧ i = x then v else a j i

def setAt (a : Nat → Cell) (k : Nat) (v : Cell) : Nat → Cell := fun i => if i = k then v else a i

namespace Tty

/-- The value of an `int` expression, if it does not overflow. -/
def int_value (n : Int) : Option Int := if -2 ^ 31 ≤ n ∧ n < 2 ^ 31 then some n else none

def update_hardware_cursor (s : Tty) : Tty :=
  { s with cursor := (s.terminal_row * VGA_WIDTH + s.terminal_column) % 2 ^ 16 }

/-- The loops of `terminal_render` over the rows of the screen, of which some are drawn. -/
def draw (row : Nat → Option (Nat → Cell)) (v : Nat → Cell) : Nat → Cell :=
  loop (fun y v =>
    match row y with
    | some r => loop (fun x v => setAt v (y * VGA_WIDTH + x) (r x)) VGA_WIDTH v
    | none => v) VGA_HEIGHT v

/-- Row `y` of the screen in `terminal_render`, when the view is scrolled back. -/
def scrolled_row (s : Tty) (y : Nat) : Option (Nat → Cell) :=
  let start_line := (s.history_count : Int) - s.scroll_offset
  let line_idx := start_line + y
  if line_idx < 0 then some fun _ => vga_entry 0x20 s.terminal_color
  else if line_idx < s.history_count then
    let hist_slot :=
      if s.history_count < SCROLLBACK_LINES then line_idx.toNat
      else (s.history_head + line_idx.toNat) % SCROLLBACK_LINES
    some (s.history hist_slot)
  else
    let live_y := (line_idx - s.history_count).toNat
    if live_y < VGA_HEIGHT then some (s.live_screen live_y) else none

def terminal_render (s : Tty) : Tty :=
  if s.scroll_offset = 0 then
    update_hardware_cursor { s with VGA_BUFFER := draw (fun y => some (s.live_screen y)) s.VGA_BUFFER }
  else
    -- the cursor is moved off the screen
    { s with VGA_BUFFER := draw s.scrolled_row s.VGA_BUFFER, cursor := 0xFFFF }

def terminal_scroll (s : Tty) : Tty :=
  let history := loop (fun x h => setCell h s.history_head x (s.live_screen 0 x)) VGA_WIDTH s.history
  let live_screen := loop (fun y a => loop (fun x a => setCell a y x (a (y + 1) x)) VGA_WIDTH a)
    (VGA_HEIGHT - 1) s.live_screen
  let live_screen := loop (fun x a => setCell a (VGA_HEIGHT - 1) x (vga_entry 0x20 s.terminal_color))
    VGA_WIDTH live_screen
  terminal_render { s with
    history := history
    history_head := (s.history_head + 1) % SCROLLBACK_LINES
    history_count := if s.history_count < SCROLLBACK_LINES then s.history_count + 1 else s.history_count
    live_screen := live_screen
    terminal_row := VGA_HEIGHT - 1 }

/-- The static variables before anything ran. -/
def zero : Tty where
  VGA_BUFFER := fun _ => 0
  cursor := 0
  terminal_row := 0
  terminal_column := 0
  terminal_color := 0
  live_screen := fun _ _ => 0
  history := fun _ _ => 0
  history_count := 0
  history_head := 0
  scroll_offset := 0

/-- `terminal_initialize`; the color is light cyan on black. -/
def terminal_initialize (s : Tty) : Tty :=
  let terminal_color : BitVec 8 := 0 <<< 4 ||| 11
  let live_screen := loop (fun y a =>
    loop (fun x a => setCell a y x (vga_entry 0x20 terminal_color)) VGA_WIDTH a) VGA_HEIGHT s.live_screen
  update_hardware_cursor { s with
    terminal_row := 0
    terminal_column := 0
    terminal_color := terminal_color
    scroll_offset := 0
    live_screen := live_screen
    VGA_BUFFER := draw (fun y => some (live_screen y)) s.VGA_BUFFER }

/-- A cell of the row and column written to, on the live screen and in the VGA buffer. -/
def put (s : Tty) (v : Cell) : Tty :=
  { s with
    live_screen := setCell s.live_screen s.terminal_row s.terminal_column v
    VGA_BUFFER := setAt s.VGA_BUFFER (s.terminal_row * VGA_WIDTH + s.terminal_column) v }

/-- The rest of `terminal_putchar`, after the view was reset. -/
def put_char (s : Tty) (c : BitVec 8) : Tty :=
  if c = 0x08 then
    if 0 < s.terminal_column then
      let s := { s with terminal_column := s.terminal_column - 1 }
      update_hardware_cursor (s.put (vga_entry 0x20 s.terminal_color))
    else s
  else if c = 0x0A then
    let s := { s with terminal_column := 0, terminal_row := s.terminal_row + 1 }
    if s.terminal_row = VGA_HEIGHT then terminal_scroll s
    else if s.scroll_offset = 0 then update_hardware_cursor s
    else s
  else
    let s := s.put (vga_entry c s.terminal_color)
    let s := { s with terminal_column := s.terminal_column + 1 }
    let s :=
      if s.terminal_column = VGA_WIDTH then
        let s := { s with terminal_column := 0, terminal_row := s.terminal_row + 1 }
        if s.terminal_row = VGA_HEIGHT then terminal_scroll s else s
      else s
    if s.scroll_offset = 0 then update_hardware_cursor s else s

def terminal_putchar (s : Tty) (c : BitVec 8) : Tty :=
  put_char (if 0 < s.scroll_offset then terminal_render { s with scroll_offset := 0 } else s) c

def terminal_scroll_up (s : Tty) (lines : Int) : Option Tty :=
  if s.history_count = 0 then some s
  else
    (int_value (s.scroll_offset + lines)).map fun (scroll_offset : Int) =>
      let scroll_offset := if (s.history_count : Int) < scroll_offset then (s.history_count : Int) else scroll_offset
      terminal_render { s with scroll_offset := scroll_offset }

def terminal_scroll_down (s : Tty) (lines : Int) : Option Tty :=
  if s.scroll_offset = 0 then some s
  else
    (int_value (s.scroll_offset - lines)).map fun (scroll_offset : Int) =>
      let scroll_offset := if scroll_offset < 0 then 0 else scroll_offset
      terminal_render { s with scroll_offset := scroll_offset }

def terminal_scroll_reset (s : Tty) : Tty :=
  if s.scroll_offset ≠ 0 then terminal_render { s with scroll_offset := 0 } else s

end Tty

/-! ### The loops -/

/-- A loop that fills a row from cells that are in none of its own. -/
theorem row_loop {a : Rows} {y : Nat} {g : Rows → Nat → Cell} {f : Nat → Cell}
    (hg : ∀ b x, (∀ j, j ≠ y → b j = a j) → g b x = f x) (n : Nat) :
    loop (fun x b => setCell b y x (g b x)) n a =
      fun j i => if j = y ∧ i < n then f i else a j i := by
  induction n with
  | zero =>
      funext j i
      rw [if_neg (by omega)]
      rfl
  | succ n ih =>
      have hrest : ∀ j, j ≠ y → loop (fun x b => setCell b y x (g b x)) n a j = a j := by
        intro j hj
        rw [ih]
        funext i
        dsimp only
        rw [if_neg (by omega)]
      rw [loop, hg _ n hrest, ih]
      funext j i
      unfold setCell
      dsimp only
      by_cases hlast : j = y ∧ i = n
      · rw [if_pos hlast, if_pos (by omega), hlast.2]
      · rw [if_neg hlast]
        by_cases hin : j = y ∧ i < n
        · rw [if_pos hin, if_pos (by omega)]
        · rw [if_neg hin, if_neg (by omega)]

/-- The rows moved up by one, the last of them on top of the next. -/
theorem shift_loop (a : Rows) (n : Nat) :
    loop (fun y a => loop (fun x a => setCell a y x (a (y + 1) x)) VGA_WIDTH a) n a =
      fun j i => if j < n ∧ i < VGA_WIDTH then a (j + 1) i else a j i := by
  induction n with
  | zero =>
      funext j i
      rw [if_neg (by omega)]
      rfl
  | succ n ih =>
      rw [loop, ih, row_loop (f := a (n + 1)) fun b x hb => ?_]
      · funext j i
        by_cases hlast : j = n ∧ i < VGA_WIDTH
        · rw [if_pos hlast, if_pos (by omega), hlast.1]
        · rw [if_neg hlast]
          by_cases hin : j < n ∧ i < VGA_WIDTH
          · rw [if_pos hin, if_pos (by omega)]
          · rw [if_neg hin, if_neg (by omega)]
      · rw [hb (n + 1) (by omega)]
        dsimp only
        rw [if_neg (by omega)]

theorem fill_loop (a : Rows) (v : Cell) (n : Nat) :
    loop (fun y a => loop (fun x a => setCell a y x v) VGA_WIDTH a) n a =
      fun j i => if j < n ∧ i < VGA_WIDTH then v else a j i := by
  induction n with
  | zero =>
      funext j i
      rw [if_neg (by omega)]
      rfl
  | succ n ih =>
      rw [loop, ih, row_loop (f := fun _ => v) fun _ _ _ => rfl]
      funext j i
      by_cases hlast : j = n ∧ i < VGA_WIDTH
      · rw [if_pos hlast, if_pos (by omega)]
      · rw [if_neg hlast]
        by_cases hin : j < n ∧ i < VGA_WIDTH
        · rw [if_pos hin, if_pos (by omega)]
        · rw [if_neg hin, if_neg (by omega)]

/-- One row of the screen drawn. -/
theorem draw_row (r : Nat → Cell) (y : Nat) (v : Nat → Cell) (n : Nat) :
    loop (fun x v => setAt v (y * VGA_WIDTH + x) (r x)) n v =
      fun k => if y * VGA_WIDTH ≤ k ∧ k < y * VGA_WIDTH + n then r (k - y * VGA_WIDTH) else v k := by
  induction n with
  | zero =>
      funext k
      rw [if_neg (by omega)]
      rfl
  | succ n ih =>
      rw [loop, ih]
      funext k
      unfold setAt
      dsimp only
      by_cases hlast : k = y * VGA_WIDTH + n
      · rw [if_pos hlast, if_pos (by omega), hlast, Nat.add_sub_cancel_left]
      · rw [if_neg hlast]
        by_cases hin : y * VGA_WIDTH ≤ k ∧ k < y * VGA_WIDTH + n
        · rw [if_pos hin, if_pos (by omega)]
        · rw [if_neg hin, if_neg (by omega)]

/-- A screen of which every row is drawn. -/
theorem draw_all {row : Nat → Option (Nat → Cell)} {f : Rows}
    (hrow : ∀ y, y < VGA_HEIGHT → row y = some (f y)) (v : Nat → Cell) {y x : Nat}
    (hy : y < VGA_HEIGHT) (hx : x < VGA_WIDTH) : Tty.draw row v (y * VGA_WIDTH + x) = f y x := by
  unfold Tty.draw
  refine loop_induct (P := fun n (v : Nat → Cell) => ∀ y, y < n → y < VGA_HEIGHT → ∀ x, x < VGA_WIDTH →
    v (y * VGA_WIDTH + x) = f y x) (fun y hy => absurd hy (Nat.not_lt_zero y)) ?_ y hy hy x hx
  intro n v hn ih y hy hin x hx
  rw [hrow n hn]
  dsimp only
  rw [draw_row]
  dsimp only
  by_cases hyn : y = n
  · rw [hyn, if_pos (by omega), Nat.add_sub_cancel_left]
  · -- an earlier row lies before this one
    have hbefore : (y + 1) * VGA_WIDTH ≤ n * VGA_WIDTH := Nat.mul_le_mul_right _ (by omega)
    rw [Nat.succ_mul] at hbefore
    rw [if_neg (by omega), ih y (by omega) hin x hx]

end Eke
