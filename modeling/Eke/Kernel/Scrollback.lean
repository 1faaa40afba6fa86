/-
The scrollback shows the true history.

A terminal is meant to be a roll of paper: rows go off the top and are never lost, 25 rows are
written to, and the view may be moved back.  `Roll` is that machine, with the rows that went off
in a list and no arrays.  The terminal of `tty.cpp` keeps the end of the list in a ring and the
picture in the VGA buffer; `Shows` says what the two have in common, and every call keeps it: a
view that moves is drawn anew from the ring and the live rows, and while the view is live, the
buffer takes the same cells as the rows do.
-/
import Eke.Kernel.Tty
import Eke.Lib.Ring
import Eke.Lib.Throughout

namespace Eke

/-! ### The roll -/

structure Roll where
  /-- The rows that went off the top, oldest first. -/
  gone : List (Nat → Cell)
  live : Rows
  row : Nat
  column : Nat
  color : BitVec 8
  /-- How many rows the view is scrolled back. -/
  offset : Nat

namespace Roll

def blank (r : Roll) : Cell := vga_entry 0x20 r.color

/-- The rows that can still be scrolled back to. -/
def kept (r : Roll) : List (Nat → Cell) := lastOf SCROLLBACK_LINES r.gone

/-- These, followed by the live rows. -/
def rows (r : Roll) : List (Nat → Cell) := r.kept ++ (List.range VGA_HEIGHT).map r.live

def put (r : Roll) (v : Cell) : Roll := { r with live := setCell r.live r.row r.column v }

/-- The top row goes off, and there is a blank one at the bottom. -/
def advance (r : Roll) : Roll :=
  { r with
    gone := r.gone ++ [r.live 0]
    live := fun y => if y < VGA_HEIGHT - 1 then r.live (y + 1) else fun _ => r.blank
    row := VGA_HEIGHT - 1 }

def newline (r : Roll) : Roll :=
  let r := { r with column := 0, row := r.row + 1 }
  if r.row = VGA_HEIGHT then r.advance else r

def put_char (r : Roll) (c : BitVec 8) : Roll :=
  if c = 0x08 then
    if 0 < r.column then { r with column := r.column - 1 }.put r.blank else r
  else if c = 0x0A then r.newline
  else
    let r := r.put (vga_entry c r.color)
    if r.column + 1 = VGA_WIDTH then r.newline else { r with column := r.column + 1 }

/-- A character is written with the view live. -/
def putchar (r : Roll) (c : BitVec 8) : Roll := { r with offset := 0 }.put_char c

/-- A blank roll, light cyan on black. -/
def start : Roll := ⟨[], fun _ _ => vga_entry 0x20 11, 0, 0, 11, 0⟩

end Roll

/-! ### Calls -/

inductive TtyCall where
  | putchar (c : BitVec 8)
  | scroll_up (lines : Int)
  | scroll_down (lines : Int)
  | scroll_reset

namespace TtyCall

/-- A count that is scrolled by is a positive `int`. -/
def Positive : TtyCall → Prop
  | putchar _ => True
  | scroll_up lines => 0 < lines ∧ lines < 2 ^ 31
  | scroll_down lines => 0 < lines ∧ lines < 2 ^ 31
  | scroll_reset => True

def run (s : Tty) : TtyCall → Option Tty
  | putchar c => some (s.terminal_putchar c)
  | scroll_up lines => s.terminal_scroll_up lines
  | scroll_down lines => s.terminal_scroll_down lines
  | scroll_reset => some s.terminal_scroll_reset

def step (r : Roll) : TtyCall → Roll
  | putchar c => r.putchar c
  | scroll_up lines => { r with offset := min (r.offset + lines.toNat) r.kept.length }
  | scroll_down lines => { r with offset := r.offset - lines.toNat }
  | scroll_reset => { r with offset := 0 }

/-- Nothing is there to scroll back to, or the offset stays an `int`. -/
def InRange (r : Roll) : TtyCall → Prop
  | scroll_up lines => r.kept = [] ∨ r.offset + lines < 2 ^ 31
  | _ => True

end TtyCall

/-- The terminal after the calls, from `terminal_initialize` on. -/
def runTty (calls : List TtyCall) : Option Tty :=
  calls.foldlM TtyCall.run (Tty.terminal_initialize .zero)

def runRoll (calls : List TtyCall) : Roll := calls.foldl TtyCall.step .start

/-! ### What the terminal and the roll have in common -/

/-- The rows are the same as far as they are drawn. -/
def SameRow (a b : Nat → Cell) : Prop := ∀ x, x < VGA_WIDTH → a x = b x

/-- All but the screen. -/
structure Keeps (s : Tty) (r : Roll) : Prop where
  live : ∀ y, y < VGA_HEIGHT → SameRow (s.live_screen y) (r.live y)
  ring : Ring SameRow SCROLLBACK_LINES s.history s.history_head s.history_count r.gone
  row : s.terminal_row = r.row
  column : s.terminal_column = r.column
  color : s.terminal_color = r.color
  offset : s.scroll_offset = r.offset
  offset_le : r.offset ≤ r.kept.length

/-- The row of the roll at place `y` of the view is in row `y` of the screen. -/
def Drawn (s : Tty) (r : Roll) : Prop :=
  ∀ y, y < VGA_HEIGHT → ∃ row, r.rows[r.kept.length - r.offset + y]? = some row ∧
    ∀ x, x < VGA_WIDTH → s.VGA_BUFFER (y * VGA_WIDTH + x) = row x

structure Shows (s : Tty) (r : Roll) : Prop where
  keeps : Keeps s r
  drawn : Drawn s r
  row_lt : r.row < VGA_HEIGHT
  column_lt : r.column < VGA_WIDTH
  cursor : s.cursor = if r.offset = 0 then r.row * VGA_WIDTH + r.column else 0xFFFF

theorem rows_kept {r : Roll} {i : Nat} (h : i < r.kept.length) : r.rows[i]? = r.kept[i]? :=
  List.getElem?_append_left h

theorem rows_live {r : Roll} {y : Nat} (hy : y < VGA_HEIGHT) :
    r.rows[r.kept.length + y]? = some (r.live y) := by
  unfold Roll.rows
  rw [List.getElem?_append_right (Nat.le_add_right _ _), Nat.add_sub_cancel_left, List.getElem?_map,
    List.getElem?_range hy]
  rfl

/-- In the live view the screen has the live rows. -/
theorem drawn_live {s : Tty} {r : Roll} (h : r.offset = 0) :
    Drawn s r ↔ ∀ y, y < VGA_HEIGHT → ∀ x, x < VGA_WIDTH →
      s.VGA_BUFFER (y * VGA_WIDTH + x) = r.live y x := by
  unfold Drawn
  rw [h]
  constructor
  · intro hdrawn y hy x hx
    obtain ⟨row, hrow, hcells⟩ := hdrawn y hy
    rw [Nat.sub_zero, rows_live hy] at hrow
    rw [hcells x hx, Option.some.inj hrow]
  · intro hcells y hy
    refine ⟨r.live y, ?_, hcells y hy⟩
    rw [Nat.sub_zero, rows_live hy]

/-! ### Drawing -/

theorem Keeps.count {s : Tty} {r : Roll} (h : Keeps s r) : s.history_count = r.kept.length :=
  h.ring.length.symm

/-- What is drawn in a row of a view that is scrolled back: a row of the ring, or a live one. -/
theorem Keeps.scrolled_row {s : Tty} {r : Roll} (h : Keeps s r) {y : Nat} (hy : y < VGA_HEIGHT) :
    ∃ cells row, s.scrolled_row y = some cells ∧
      r.rows[r.kept.length - r.offset + y]? = some row ∧ SameRow cells row := by
  have hcount := h.count
  have hoffset := h.offset
  have hle := h.offset_le
  have hread := fun {i x} => h.ring.read (i := i) (x := x)
  have hidx : (s.history_count : Int) - s.scroll_offset + y =
      ((r.kept.length - r.offset + y : Nat) : Int) := by omega
  have hlen : (r.rows).length = r.kept.length + VGA_HEIGHT := by simp [Roll.rows]
  unfold Tty.scrolled_row
  simp only [hidx]
  generalize hi : r.kept.length - r.offset + y = i
  rw [if_neg (by omega)]
  by_cases hkept : i < r.kept.length
  · rw [if_pos (by omega), Int.toNat_natCast]
    refine ⟨_, r.kept[i], rfl, ?_, ?_⟩
    · rw [rows_kept hkept, List.getElem?_eq_getElem hkept]
    · exact hread (List.getElem?_eq_getElem hkept)
  · rw [if_neg (by omega)]
    have hlive : ((i : Int) - s.history_count).toNat = i - r.kept.length := by omega
    have hlt : i - r.kept.length < VGA_HEIGHT := by omega
    rw [hlive, if_pos hlt]
    refine ⟨_, r.live (i - r.kept.length), rfl, ?_, h.live _ hlt⟩
    have hrow := rows_live (r := r) hlt
    rwa [Nat.add_sub_cancel' (by omega)] at hrow

theorem Keeps.render {s : Tty} {r : Roll} (h : Keeps s r) (hrow : r.row < VGA_HEIGHT)
    (hcolumn : r.column < VGA_WIDTH) : Shows s.terminal_render r := by
  have hoffset := h.offset
  unfold Tty.terminal_render
  by_cases hlive : s.scroll_offset = 0
  · rw [if_pos hlive]
    have hzero : r.offset = 0 := by omega
    refine ⟨⟨h.live, h.ring, h.row, h.column, h.color, h.offset, h.offset_le⟩,
      (drawn_live hzero).mpr ?_, hrow, hcolumn, ?_⟩
    · intro y hy x hx
      rw [← h.live y hy x hx]
      exact draw_all (f := s.live_screen) (fun _ _ => rfl) _ hy hx
    · rw [if_pos hzero]
      show (s.terminal_row * VGA_WIDTH + s.terminal_column) % 2 ^ 16 = _
      rw [h.row, h.column]
      unfold VGA_WIDTH VGA_HEIGHT at *
      omega
  · rw [if_neg hlive]
    refine ⟨⟨h.live, h.ring, h.row, h.column, h.color, h.offset, h.offset_le⟩, fun y hy => ?_, hrow,
      hcolumn, (if_neg (by omega)).symm⟩
    obtain ⟨cells, row, hcells, hin, hsame⟩ := h.scrolled_row hy
    have hall : ∀ y, y < VGA_HEIGHT → s.scrolled_row y = some ((s.scrolled_row y).getD fun _ => 0) := by
      intro y hy
      obtain ⟨cells, -, hcells, -⟩ := h.scrolled_row hy
      rw [hcells]
      rfl
    refine ⟨row, hin, fun x hx => (draw_all hall s.VGA_BUFFER hy hx).trans ?_⟩
    rw [hcells]
    exact hsame x hx

/-! ### Output -/

/-- A terminal whose view is live: the screen has the live rows. -/
structure Live (s : Tty) (r : Roll) : Prop where
  keeps : Keeps s r
  offset : r.offset = 0
  screen : ∀ y, y < VGA_HEIGHT → ∀ x, x < VGA_WIDTH → s.VGA_BUFFER (y * VGA_WIDTH + x) = r.live y x

theorem Shows.live {s : Tty} {r : Roll} (h : Shows s r) (hoffset : r.offset = 0) : Live s r :=
  ⟨h.keeps, hoffset, (drawn_live hoffset).mp h.drawn⟩

theorem Keeps.offset_zero {s : Tty} {r : Roll} (h : Keeps s r) (hoffset : r.offset = 0) :
    s.scroll_offset = 0 := by
  rw [h.offset, hoffset]
  rfl

/-- Setting the hardware cursor is all that is left to do in a live view. -/
theorem Live.shows {s : Tty} {r : Roll} (h : Live s r) (hrow : r.row < VGA_HEIGHT)
    (hcolumn : r.column < VGA_WIDTH) : Shows s.update_hardware_cursor r := by
  have hk := h.keeps
  refine ⟨⟨hk.live, hk.ring, hk.row, hk.column, hk.color, hk.offset, hk.offset_le⟩,
    (drawn_live h.offset).mpr h.screen, hrow, hcolumn, ?_⟩
  rw [if_pos h.offset]
  show (s.terminal_row * VGA_WIDTH + s.terminal_column) % 2 ^ 16 = _
  rw [hk.row, hk.column]
  unfold VGA_WIDTH VGA_HEIGHT at *
  omega

/-- The terminal and the roll write one cell. -/
theorem Live.put {s : Tty} {r : Roll} (h : Live s r) (hcolumn : r.column < VGA_WIDTH) (v : Cell) : Live (s.put v) (r.put v) := by
  have hk := h.keeps
  refine ⟨⟨fun y hy x hx => ?_, hk.ring, hk.row, hk.column, hk.color, hk.offset, hk.offset_le⟩,
    h.offset, fun y hy x hx => ?_⟩
  · show setCell s.live_screen s.terminal_row s.terminal_column v y x =
      setCell r.live r.row r.column v y x
    unfold setCell
    rw [hk.row, hk.column, hk.live y hy x hx]
  · show setAt s.VGA_BUFFER (s.terminal_row * VGA_WIDTH + s.terminal_column) v (y * VGA_WIDTH + x) =
      setCell r.live r.row r.column v y x
    unfold setAt setCell
    rw [hk.row, hk.column, h.screen y hy x hx]
    have hcell : y * VGA_WIDTH + x = r.row * VGA_WIDTH + r.column ↔ y = r.row ∧ x = r.column := by
      unfold VGA_WIDTH at *
      omega
    by_cases heq : y = r.row ∧ x = r.column
    · rw [if_pos heq, if_pos (hcell.mpr heq)]
    · rw [if_neg heq, if_neg fun hc => heq (hcell.mp hc)]

/-- A row goes off the top. -/
theorem Live.scroll {s : Tty} {r : Roll} (h : Live s r) (hcolumn : r.column < VGA_WIDTH) :
    Shows s.terminal_scroll r.advance := by
  have hk := h.keeps
  have hbottom : r.advance.row < VGA_HEIGHT := Nat.lt_succ_self 24
  refine Keeps.render ⟨fun y hy x hx => ?_, ?_, rfl, hk.column, hk.color, hk.offset, ?_⟩ hbottom hcolumn
  · -- the live rows moved up, and the last one blank
    dsimp only
    rw [row_loop (f := fun _ => vga_entry 0x20 s.terminal_color) fun _ _ _ => rfl, shift_loop]
    dsimp only
    show _ = (if y < VGA_HEIGHT - 1 then r.live (y + 1) else fun _ => r.blank) x
    by_cases hlast : y < VGA_HEIGHT - 1
    · rw [if_neg (by omega), if_pos ⟨hlast, hx⟩, if_pos hlast, hk.live _ (by omega) x hx]
    · rw [if_pos (by omega), if_neg hlast, hk.color]
      rfl
  · -- the top row is written to the head of the ring
    refine hk.ring.push (by decide) (fun x hx => ?_) (fun i _ hi row hrow x hx => ?_)
    · rw [row_loop (f := s.live_screen 0) fun _ _ _ => rfl]
      dsimp only
      rw [if_pos ⟨rfl, hx⟩, hk.live 0 (by decide) x hx]
    · rw [row_loop (f := s.live_screen 0) fun _ _ _ => rfl]
      dsimp only
      rw [if_neg fun hc => hi hc.1, hrow x hx]
  · show r.offset ≤ r.advance.kept.length
    rw [h.offset]
    exact Nat.zero_le _

/-- The next row, which may be the one behind the last. -/
theorem Live.newline {s : Tty} {r : Roll} (h : Live s r) (hrow : r.row < VGA_HEIGHT) :
    let s' : Tty := { s with terminal_column := 0, terminal_row := s.terminal_row + 1 }
    (s'.terminal_row = VGA_HEIGHT → Shows s'.terminal_scroll r.newline) ∧
      (s'.terminal_row ≠ VGA_HEIGHT → Live s' r.newline ∧ r.newline.row < VGA_HEIGHT ∧
        r.newline.column < VGA_WIDTH) := by
  intro s'
  have hk := h.keeps
  have hmoved : Live s' { r with column := 0, row := r.row + 1 } :=
    ⟨⟨hk.live, hk.ring, congrArg (· + 1) hk.row, rfl, hk.color, hk.offset, hk.offset_le⟩, h.offset,
      h.screen⟩
  have hrow' : s'.terminal_row = r.row + 1 := congrArg (· + 1) hk.row
  unfold Roll.newline
  dsimp only
  constructor
  · intro hend
    rw [if_pos (by omega)]
    exact hmoved.scroll (Nat.succ_pos 79)
  · intro hend
    rw [if_neg (by omega)]
    exact ⟨hmoved, by show r.row + 1 < VGA_HEIGHT; omega, Nat.succ_pos 79⟩

/-- The view is live once a character comes. -/
theorem Shows.awake {s : Tty} {r : Roll} (h : Shows s r) :
    Shows (if 0 < s.scroll_offset then { s with scroll_offset := 0 }.terminal_render else s)
      { r with offset := 0 } := by
  have hk := h.keeps
  have hoffset := hk.offset
  by_cases hback : 0 < s.scroll_offset
  · rw [if_pos hback]
    exact Keeps.render ⟨hk.live, hk.ring, hk.row, hk.column, hk.color, rfl, Nat.zero_le _⟩ h.row_lt
      h.column_lt
  · rw [if_neg hback]
    have hzero : r.offset = 0 := by omega
    rwa [show { r with offset := 0 } = r by rw [← hzero]]

theorem Roll.newline_offset (r : Roll) : r.newline.offset = r.offset := by
  unfold Roll.newline
  dsimp only
  split
  · rfl
  · rfl

theorem Roll.put_char_offset (r : Roll) (c : BitVec 8) : (r.put_char c).offset = r.offset := by
  unfold Roll.put_char
  split
  · split
    · rfl
    · rfl
  · split
    · exact r.newline_offset
    · dsimp only
      split
      · exact Roll.newline_offset _
      · rfl

/-- Output, with the view live. -/
theorem Shows.put_char {s : Tty} {r : Roll} (h : Shows s r) (hoffset : r.offset = 0) (c : BitVec 8) :
    Shows (s.put_char c) (r.put_char c) := by
  have hlive := h.live hoffset
  have hk := h.keeps
  have hrow := h.row_lt
  have hcolumn := h.column_lt
  unfold Tty.put_char Roll.put_char
  by_cases hback : c = 0x08
  · rw [if_pos hback, if_pos hback, ← hk.column]
    by_cases hleft : 0 < s.terminal_column
    · rw [if_pos hleft, if_pos hleft]
      have hcolumn' : s.terminal_column - 1 < VGA_WIDTH := by
        rw [hk.column]
        omega
      have hmoved : Live { s with terminal_column := s.terminal_column - 1 }
          { r with column := s.terminal_column - 1 } :=
        ⟨⟨hk.live, hk.ring, hk.row, rfl, hk.color, hk.offset, hk.offset_le⟩, hoffset, hlive.screen⟩
      have hput := hmoved.put hcolumn' r.blank
      have hblank : r.blank = vga_entry 0x20 s.terminal_color := by
        rw [hk.color]
        rfl
      rw [hblank] at hput ⊢
      exact hput.shows hrow hcolumn'
    · rw [if_neg hleft, if_neg hleft]
      exact h
  rw [if_neg hback, if_neg hback]
  by_cases hnl : c = 0x0A
  · rw [if_pos hnl, if_pos hnl]
    obtain ⟨hscroll, hstay⟩ := hlive.newline hrow
    dsimp only at hscroll hstay ⊢
    by_cases hend : s.terminal_row + 1 = VGA_HEIGHT
    · rw [if_pos hend]
      exact hscroll hend
    · rw [if_neg hend, if_pos (hk.offset_zero hoffset)]
      obtain ⟨hlive', hrow', hcolumn'⟩ := hstay hend
      exact hlive'.shows hrow' hcolumn'
  rw [if_neg hnl, if_neg hnl]
  -- a character, which may be the last one of its row
  have hput := hlive.put hcolumn (vga_entry c s.terminal_color)
  have hrow₁ : (r.put (vga_entry c s.terminal_color)).row < VGA_HEIGHT := hrow
  have hcolumn₁ : (r.put (vga_entry c s.terminal_color)).column < VGA_WIDTH := hcolumn
  rw [← hk.color]
  dsimp only
  generalize s.put (vga_entry c s.terminal_color) = s₁ at *
  generalize r.put (vga_entry c s.terminal_color) = r₁ at *
  have hk₁ := hput.keeps
  rw [← hk₁.column]
  by_cases hend : s₁.terminal_column + 1 = VGA_WIDTH
  · rw [if_pos hend, if_pos hend]
    obtain ⟨hscroll, hstay⟩ := hput.newline hrow₁
    dsimp only at hscroll hstay ⊢
    by_cases hbottom : s₁.terminal_row + 1 = VGA_HEIGHT
    · rw [if_pos hbottom]
      have hshows := hscroll hbottom
      have hoffset₁ : r₁.newline.offset = 0 := r₁.newline_offset.trans hput.offset
      rw [if_pos (hshows.keeps.offset_zero hoffset₁)]
      exact (hshows.live hoffset₁).shows hshows.row_lt hshows.column_lt
    · rw [if_neg hbottom, if_pos (hk₁.offset_zero hput.offset)]
      obtain ⟨hlive', hrow', hcolumn'⟩ := hstay hbottom
      exact hlive'.shows hrow' hcolumn'
  · rw [if_neg hend, if_neg hend]
    dsimp only
    rw [if_pos (hk₁.offset_zero hput.offset)]
    have hcolumn' : s₁.terminal_column + 1 < VGA_WIDTH := by
      rw [hk₁.column] at hend ⊢
      omega
    have hmoved : Live { s₁ with terminal_column := s₁.terminal_column + 1 }
        { r₁ with column := s₁.terminal_column + 1 } :=
      ⟨⟨hk₁.live, hk₁.ring, hk₁.row, rfl, hk₁.color, hk₁.offset, hk₁.offset_le⟩, hput.offset,
        hput.screen⟩
    exact hmoved.shows hrow₁ hcolumn'

theorem Shows.putchar {s : Tty} {r : Roll} (h : Shows s r) (c : BitVec 8) :
    Shows (s.terminal_putchar c) (r.putchar c) := h.awake.put_char rfl c

/-! ### Scrolling -/

theorem int_value_iff (n k : Int) : Tty.int_value n = some k ↔ k = n ∧ -2 ^ 31 ≤ n ∧ n < 2 ^ 31 := by
  unfold Tty.int_value
  by_cases h : -2 ^ 31 ≤ n ∧ n < 2 ^ 31
  · rw [if_pos h]
    constructor
    · intro heq
      exact ⟨(Option.some.inj heq).symm, h⟩
    · intro heq
      rw [heq.1]
  · rw [if_neg h]
    constructor
    · intro heq
      cases heq
    · intro heq
      exact absurd heq.2 h

/-- The view moves. -/
theorem Shows.move {s : Tty} {r : Roll} (h : Shows s r) {offset : Int} {k : Nat}
    (hk : offset = k) (hle : k ≤ r.kept.length) :
    Shows { s with scroll_offset := offset }.terminal_render { r with offset := k } :=
  Keeps.render ⟨h.keeps.live, h.keeps.ring, h.keeps.row, h.keeps.column, h.keeps.color, hk, hle⟩
    h.row_lt h.column_lt

/-- One call: it has a value exactly when the offset stays in range, and keeps what is shown. -/
theorem Shows.call {s : Tty} {r : Roll} (h : Shows s r) {c : TtyCall} (hc : c.Positive) :
    (c.InRange r → ∃ s', c.run s = some s' ∧ Shows s' (c.step r)) ∧
      (¬ c.InRange r → c.run s = none) := by
  have hcount := h.keeps.count
  have hoffset := h.keeps.offset
  have hle := h.keeps.offset_le
  have hmax : r.kept.length ≤ SCROLLBACK_LINES := by
    have hring := h.keeps.ring.count
    omega
  unfold SCROLLBACK_LINES at hmax
  cases c with
  | putchar c => exact ⟨fun _ => ⟨_, rfl, h.putchar c⟩, fun hout => absurd trivial hout⟩
  | scroll_reset =>
      refine ⟨fun _ => ⟨_, rfl, ?_⟩, fun hout => absurd trivial hout⟩
      unfold Tty.terminal_scroll_reset
      by_cases hzero : s.scroll_offset ≠ 0
      · rw [if_pos hzero]
        exact h.move rfl (Nat.zero_le _)
      · rw [if_neg hzero]
        show Shows s { r with offset := 0 }
        rwa [show { r with offset := 0 } = r by rw [show 0 = r.offset by omega]]
  | scroll_up lines =>
      obtain ⟨hpos, hint⟩ : 0 < lines ∧ lines < 2 ^ 31 := hc
      simp only [TtyCall.run, Tty.terminal_scroll_up]
      by_cases hempty : s.history_count = 0
      · have hkept : r.kept = [] := List.length_eq_zero_iff.mp (by omega)
        refine ⟨fun _ => ⟨s, if_pos hempty, ?_⟩, fun hout => absurd (Or.inl hkept) hout⟩
        have hstill : r.offset = min (r.offset + lines.toNat) r.kept.length := by omega
        show Shows s { r with offset := min (r.offset + lines.toNat) r.kept.length }
        rwa [show { r with offset := min (r.offset + lines.toNat) r.kept.length } = r by rw [← hstill]]
      · rw [if_neg hempty]
        constructor
        · intro hin
          have hsum : s.scroll_offset + lines < 2 ^ 31 := by
            rcases hin with hkept | hsum
            · rw [hkept] at hcount
              exact absurd hcount hempty
            · omega
          rw [(int_value_iff _ _).mpr ⟨rfl, by omega, hsum⟩]
          refine ⟨_, rfl, h.move ?_ (Nat.min_le_right _ _)⟩
          split <;> omega
        · intro hout
          have hover : ¬ (-2 ^ 31 ≤ s.scroll_offset + lines ∧ s.scroll_offset + lines < 2 ^ 31) := by
            intro hsum
            exact hout (Or.inr (by omega))
          unfold Tty.int_value
          rw [if_neg hover]
          rfl
  | scroll_down lines =>
      obtain ⟨hpos, hint⟩ : 0 < lines ∧ lines < 2 ^ 31 := hc
      refine ⟨fun _ => ?_, fun hout => absurd trivial hout⟩
      simp only [TtyCall.run, Tty.terminal_scroll_down]
      by_cases hzero : s.scroll_offset = 0
      · refine ⟨s, if_pos hzero, ?_⟩
        have hstill : r.offset = r.offset - lines.toNat := by omega
        show Shows s { r with offset := r.offset - lines.toNat }
        rwa [show { r with offset := r.offset - lines.toNat } = r by rw [← hstill]]
      · rw [if_neg hzero, (int_value_iff _ _).mpr ⟨rfl, by omega, by omega⟩]
        refine ⟨_, rfl, h.move ?_ (by omega)⟩
        split <;> omega

/-! ### Runs -/

theorem initialize_shows : Shows (Tty.terminal_initialize .zero) .start := by
  have hkeeps : Keeps (Tty.terminal_initialize .zero) .start := by
    refine ⟨fun y hy x hx => ?_, .empty _ _ _, rfl, rfl, rfl, rfl, Nat.zero_le _⟩
    have hfilled : (Tty.terminal_initialize .zero).live_screen = _ := fill_loop _ _ _
    rw [hfilled]
    exact if_pos ⟨hy, hx⟩
  refine ⟨hkeeps, (drawn_live rfl).mpr fun y hy x hx => ?_, Nat.succ_pos 24, Nat.succ_pos 79, rfl⟩
  rw [← hkeeps.live y hy x hx]
  exact draw_all (f := (Tty.terminal_initialize .zero).live_screen) (fun _ _ => rfl) _ hy hx

/-- The scrollback of the terminal shows the history of the roll. -/
structure TrueHistory (s : Tty) (r : Roll) : Prop where
  count : s.history_count = r.kept.length
  offset_nonneg : 0 ≤ s.scroll_offset
  offset_le : s.scroll_offset ≤ r.kept.length
  live : ∀ y, y < VGA_HEIGHT → ∀ x, x < VGA_WIDTH → s.live_screen y x = r.live y x
  view : ∀ y, y < VGA_HEIGHT → ∃ row, r.rows[r.kept.length - s.scroll_offset.toNat + y]? = some row ∧
    ∀ x, x < VGA_WIDTH → s.VGA_BUFFER (y * VGA_WIDTH + x) = row x
  row_lt : s.terminal_row < VGA_HEIGHT
  column_lt : s.terminal_column < VGA_WIDTH
  output : ∀ c, (s.terminal_putchar c).scroll_offset = 0

theorem Shows.trueHistory {s : Tty} {r : Roll} (h : Shows s r) : TrueHistory s r := by
  have hoffset := h.keeps.offset
  have hle := h.keeps.offset_le
  refine ⟨h.keeps.count, by omega, by omega, h.keeps.live, fun y hy => ?_, ?_, ?_, fun c => ?_⟩
  · rw [hoffset, Int.toNat_natCast]
    exact h.drawn y hy
  · rw [h.keeps.row]
    exact h.row_lt
  · rw [h.keeps.column]
    exact h.column_lt
  · exact (h.putchar c).keeps.offset_zero (Roll.put_char_offset _ c)

/-- From a terminal that shows a roll on. -/
theorem Shows.calls : ∀ (calls : List TtyCall) {s : Tty} {r : Roll}, Shows s r →
    (∀ c ∈ calls, c.Positive) →
    ((∃ s', calls.foldlM TtyCall.run s = some s' ∧ Shows s' (calls.foldl TtyCall.step r)) ∧
        Throughout TtyCall.step (fun r c => c.InRange r) r calls) ∨
      (calls.foldlM TtyCall.run s = none ∧
        ¬ Throughout TtyCall.step (fun r c => c.InRange r) r calls) := by
  intro calls
  induction calls with
  | nil => intro s r h _; exact Or.inl ⟨⟨s, rfl, h⟩, trivial⟩
  | cons c calls ih =>
      intro s r h hpos
      obtain ⟨hin, hout⟩ := h.call (hpos c List.mem_cons_self)
      rw [List.foldlM_cons]
      by_cases hrange : c.InRange r
      · obtain ⟨s', hrun, hshows⟩ := hin hrange
        rw [hrun]
        rcases ih hshows fun c hc => hpos c (List.mem_cons_of_mem _ hc) with ⟨hex, hall⟩ | ⟨hnone, hall⟩
        · exact Or.inl ⟨hex, hrange, hall⟩
        · exact Or.inr ⟨hnone, fun hboth => hall hboth.2⟩
      · rw [hout hrange]
        exact Or.inr ⟨rfl, fun hboth => hrange hboth.1⟩

/-- **Scrollback.**  Whatever is written and however far the view is moved, the terminal shows the
true history, exactly when no `terminal_scroll_up` takes the offset out of the range of an `int`. -/
theorem scrollback_true (calls : List TtyCall) (hpos : ∀ c ∈ calls, c.Positive) :
    (∃ s, runTty calls = some s ∧ TrueHistory s (runRoll calls)) ↔
      Throughout TtyCall.step (fun r c => c.InRange r) .start calls := by
  rcases initialize_shows.calls calls hpos with ⟨⟨s, hrun, hshows⟩, hall⟩ | ⟨hnone, hall⟩
  · exact ⟨fun _ => hall, fun _ => ⟨s, hrun, hshows.trueHistory⟩⟩
  · constructor
    · intro hex
      obtain ⟨s, hrun, -⟩ := hex
      rw [show runTty calls = none from hnone] at hrun
      cases hrun
    · intro hin
      exact absurd hin hall

/-- One row goes off the top, and the view is scrolled back to it. -/
theorem scrollback_true_one :
    (∃ s, runTty (List.replicate 25 (.putchar 0x0A) ++ [.scroll_up 1]) = some s ∧
        TrueHistory s (runRoll (List.replicate 25 (.putchar 0x0A) ++ [.scroll_up 1]))) ↔
      Throughout TtyCall.step (fun r c => c.InRange r) .start
        (List.replicate 25 (.putchar 0x0A) ++ [.scroll_up 1]) := by
  refine scrollback_true _ fun c hc => ?_
  rcases List.mem_append.mp hc with hc | hc
  · rw [List.eq_of_mem_replicate hc]
    trivial
  · rw [List.mem_singleton.mp hc]
    exact ⟨by decide, by decide⟩

/-- With one row gone, scrolling up twice as far as an `int` goes overflows the offset. -/
theorem scrollback_overflows :
    let calls : List TtyCall := List.replicate 25 (.putchar 0x0A) ++
      [.scroll_up (2 ^ 31 - 1), .scroll_up (2 ^ 31 - 1)]
    (∀ c ∈ calls, c.Positive) ∧ runTty calls = none ∧
      ¬ ∃ s, runTty calls = some s ∧ TrueHistory s (runRoll calls) := by
  intro calls
  have hpos : ∀ c ∈ calls, c.Positive := by
    intro c hc
    rcases List.mem_append.mp hc with hc | hc
    · rw [List.eq_of_mem_replicate hc]
      trivial
    · obtain rfl : c = .scroll_up (2 ^ 31 - 1) := by simpa using hc
      exact ⟨by decide, by decide⟩
  have hkept : (TtyCall.step (runRoll (List.replicate 25 (.putchar 0x0A)))
      (.scroll_up (2 ^ 31 - 1))).kept.length = 1 := by decide +kernel
  have hoffset : (TtyCall.step (runRoll (List.replicate 25 (.putchar 0x0A)))
      (.scroll_up (2 ^ 31 - 1))).offset = 1 := by decide +kernel
  have hout : ¬ Throughout TtyCall.step (fun r c => c.InRange r) .start calls := by
    intro hin
    obtain ⟨-, -, hsecond, -⟩ := Throughout.append.mp hin
    rcases hsecond with hnil | hsum
    · have hlen := hkept.symm.trans (congrArg List.length hnil)
      cases hlen
    · have hsum' : ((1 : Nat) : Int) + (2 ^ 31 - 1) < 2 ^ 31 := hoffset ▸ hsum
      exact absurd hsum' (by decide)
  have hnone : runTty calls = none := by
    rcases initialize_shows.calls calls hpos with ⟨-, hall⟩ | ⟨hnone, -⟩
    · exact absurd hall hout
    · exact hnone
  refine ⟨hpos, hnone, fun hex => ?_⟩
  obtain ⟨s, hrun, -⟩ := hex
  rw [hnone] at hrun
  cases hrun

end Eke
