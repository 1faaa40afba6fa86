/-
The text editor.

Its state is the global variables of the source: the lines in their fixed array, their lengths,
the cursor and the scroll position.  An index outside `lines` or `line_lens` is `undefined`.
The file system is what `gk.fs` offers, over a type for what it holds; `written` keeps what was
handed to `write_file`, and nothing reads it.

Of the screen only the text canvas is modelled, since that is what reads the lines.
-/
import Eke.Lib.Bytes
import Eke.Lib.Prog

namespace Eke

/-- A C string without its terminator. -/
abbrev Path := List Byte

/-- The functions of a file system the editor calls.  `read_file` returns what it put into the
buffer, at most as much as it was asked for, and nothing on an error; `write_file` says whether
it returned 0. -/
structure FS_API (φ : Type) where
  get_size : φ → Path → Nat
  read_file : φ → Path → (max_bytes : Nat) → Option { data : List Byte // data.length ≤ max_bytes }
  write_file : φ → Path → List Byte → Bool × φ

structure Editor (φ : Type) where
  lines : Int → Int → Byte
  line_lens : Int → Int
  total_lines : Int
  cur_x : Int
  cur_y : Int
  scroll_y : Int
  filename : Path
  status_msg : List Char
  is_dirty : Bool
  /-- What the file system holds. -/
  files : φ
  written : List (Path × List Byte)

namespace Editor

open Prog

variable {φ : Type}

abbrev E (φ α : Type) : Type := Prog (Editor φ) α

def MAX_LINES : Int := 128
def MAX_COLS : Int := 74
def VISIBLE_ROWS : Int := 23

def KEY_UP : Byte := 0x80
def KEY_DOWN : Byte := 0x81
def KEY_LEFT : Byte := 0x82
def KEY_RIGHT : Byte := 0x83

/-! ### The arrays -/

def getChar (y x : Int) : E φ Byte :=
  if 0 ≤ y ∧ y < MAX_LINES ∧ 0 ≤ x ∧ x < MAX_COLS then gets fun s => s.lines y x else undefined

def setChar (y x : Int) (c : Byte) : E φ Unit :=
  if 0 ≤ y ∧ y < MAX_LINES ∧ 0 ≤ x ∧ x < MAX_COLS then
    update fun s => { s with lines := fun j i => if j = y ∧ i = x then c else s.lines j i }
  else undefined

def getLen (y : Int) : E φ Int :=
  if 0 ≤ y ∧ y < MAX_LINES then gets fun s => s.line_lens y else undefined

def setLen (y n : Int) : E φ Unit :=
  if 0 ≤ y ∧ y < MAX_LINES then
    update fun s => { s with line_lens := fun j => if j = y then n else s.line_lens j }
  else undefined

/-! ### Files -/

/-- The loop over the bytes of a file: the line and the column it ends at. -/
def load_bytes : List Byte → Int → Int → E φ (Int × Int)
  | [], l, c => pure (l, c)
  | ch :: rest, l, c =>
      if l < MAX_LINES then
        if ch = 13 then load_bytes rest l c
        else if ch = 10 then do
          setChar l c 0
          setLen l c
          load_bytes rest (l + 1) 0
        else if c < MAX_COLS - 1 then do
          setChar l c ch
          load_bytes rest l (c + 1)
        else load_bytes rest l c
      else pure (l, c)

def load_file (fs : Option (FS_API φ)) (path : Path) : E φ Unit := do
  update fun s => { s with total_lines := 1 }
  setLen 0 0
  setChar 0 0 0
  update fun s =>
    { s with cur_x := 0, cur_y := 0, scroll_y := 0, is_dirty := false, status_msg := []
             filename := path.take 63 }
  match fs with
  | none => pure ()
  | some fs => do
      let sz ← gets fun s => fs.get_size s.files path
      if sz = 0 then pure () else do
        match ← gets fun s => fs.read_file s.files path (if sz < 8191 then sz else 8191) with
        | none => pure ()
        | some data =>
            if data.val = [] then pure () else do
              let (l, c) ← load_bytes data.val 0 0
              setChar l c 0
              setLen l c
              update fun s => { s with total_lines := l + 1 }

/-- The characters of a line, up to 8100 in all: `n` are left, from column `c` on. -/
def save_chars (l : Int) : Nat → Int → List Byte → E φ (List Byte)
  | 0, _, out => pure out
  | n + 1, c, out =>
      if out.length < 8100 then do
        let ch ← getChar l c
        save_chars l n (c + 1) (out ++ [ch])
      else pure out

/-- The lines from `l` on, of which `n` are left. -/
def save_lines : Nat → Int → List Byte → E φ (List Byte)
  | 0, _, out => pure out
  | n + 1, l, out =>
      if out.length < 8100 then do
        let len ← getLen l
        let out ← save_chars l len.toNat 0 out
        let total ← gets fun s => s.total_lines
        save_lines n (l + 1) (if l < total - 1 then out ++ [10] else out)
      else pure out

/-- The buffer `save_file` writes. -/
def out_buf : E φ (List Byte) := do
  let total ← gets fun s => s.total_lines
  save_lines total.toNat 0 []

def saved : List Char := ['[', 'S', 'a', 'v', 'e', 'd', '!', ']']

def saveError : List Char := ['[', 'S', 'a', 'v', 'e', ' ', 'E', 'r', 'r', 'o', 'r', '!', ']']

def save_file : Option (FS_API φ) → E φ Unit
  | none => pure ()
  | some fs => do
      let out ← out_buf
      update fun s =>
        let (ok, files) := fs.write_file s.files s.filename out
        { s with files := files, written := s.written ++ [(s.filename, out)]
                 is_dirty := if ok then false else s.is_dirty
                 status_msg := if ok then saved else saveError }

/-! ### The screen -/

/-- The columns from `col` on, of which `n` are left. -/
def canvas_cells (file_line len : Int) : Nat → Int → E φ (List Byte)
  | 0, _ => pure []
  | n + 1, col => do
      let ch ← (if col < len then getChar file_line col else pure 32 : E φ Byte)
      let rest ← canvas_cells file_line len n (col + 1)
      pure (ch :: rest)

/-- The rows from the line `file_line` on, of which `n` are left; empty behind the last line. -/
def canvas_rows : Nat → Int → E φ (List (List Byte))
  | 0, _ => pure []
  | n + 1, file_line => do
      let total ← gets fun s => s.total_lines
      let row ← (if file_line < total then do
          let len ← getLen file_line
          canvas_cells file_line len 74 0
        else pure [] : E φ (List Byte))
      let rest ← canvas_rows n (file_line + 1)
      pure (row :: rest)

def render_editor : E φ (List (List Byte)) := do
  let scroll_y ← gets fun s => s.scroll_y
  canvas_rows VISIBLE_ROWS.toNat scroll_y

/-- The scroll position follows the cursor. -/
def adjust_scroll : E φ Unit :=
  update fun s =>
    if s.cur_y < s.scroll_y then { s with scroll_y := s.cur_y }
    else if s.cur_y ≥ s.scroll_y + VISIBLE_ROWS then { s with scroll_y := s.cur_y - VISIBLE_ROWS + 1 }
    else s

/-! ### Keys -/

/-- The cursor goes to another line, in the column it was in or at the end. -/
def to_line (y : Int) : E φ Unit := do
  update fun s => { s with cur_y := y }
  let len ← getLen y
  update fun s => if s.cur_x > len then { s with cur_x := len } else s

def key_up : E φ Unit := do
  let y ← gets fun s => s.cur_y
  if y > 0 then to_line (y - 1) else pure ()

def key_down : E φ Unit := do
  let y ← gets fun s => s.cur_y
  let total ← gets fun s => s.total_lines
  if y < total - 1 then to_line (y + 1) else pure ()

def key_left : E φ Unit := do
  let x ← gets fun s => s.cur_x
  let y ← gets fun s => s.cur_y
  if x > 0 then update fun s => { s with cur_x := x - 1 }
  else if y > 0 then do
    let len ← getLen (y - 1)
    update fun s => { s with cur_y := y - 1, cur_x := len }
  else pure ()

def key_right : E φ Unit := do
  let x ← gets fun s => s.cur_x
  let y ← gets fun s => s.cur_y
  let total ← gets fun s => s.total_lines
  let len ← getLen y
  if x < len then update fun s => { s with cur_x := x + 1 }
  else if y < total - 1 then update fun s => { s with cur_y := y + 1, cur_x := 0 }
  else pure ()

/-- The character in front of the cursor is deleted. -/
def delete_char : E φ Unit := do
  let x ← gets fun s => s.cur_x
  let y ← gets fun s => s.cur_y
  let len ← getLen y
  forUp (x - 1) len fun i => do
    let ch ← getChar y (i + 1)
    setChar y i ch
  setLen y (len - 1)
  update fun s => { s with cur_x := x - 1, is_dirty := true }

/-- The line `src` is copied to `dst`, with its terminator. -/
def copy_line (dst src : Int) : E φ Unit := do
  let len ← getLen src
  forUp 0 (len + 1) fun col => do
    let ch ← getChar src col
    setChar dst col ch
  setLen dst len

/-- The line of the cursor is merged into the one before it. -/
def merge_lines : E φ Unit := do
  let y ← gets fun s => s.cur_y
  let prev_len ← getLen (y - 1)
  let this_len ← getLen y
  if prev_len + this_len < MAX_COLS - 1 then do
    forUp 0 this_len fun i => do
      let ch ← getChar y i
      setChar (y - 1) (prev_len + i) ch
    setChar (y - 1) (prev_len + this_len) 0
    setLen (y - 1) (prev_len + this_len)
    let total ← gets fun s => s.total_lines
    forUp y (total - 1) fun l => copy_line l (l + 1)
    update fun s => { s with total_lines := total - 1, cur_y := y - 1, cur_x := prev_len, is_dirty := true }
  else pure ()

def key_backspace : E φ Unit := do
  let x ← gets fun s => s.cur_x
  let y ← gets fun s => s.cur_y
  if x > 0 then delete_char
  else if x = 0 ∧ y > 0 then merge_lines
  else pure ()

def key_enter : E φ Unit := do
  let x ← gets fun s => s.cur_x
  let y ← gets fun s => s.cur_y
  let total ← gets fun s => s.total_lines
  if total < MAX_LINES then do
    forDown total (y + 2) fun l => copy_line l (l - 1)
    let len ← getLen y
    let rem_len := len - x
    forUp 0 rem_len fun i => do
      let ch ← getChar y (x + i)
      setChar (y + 1) i ch
    setChar (y + 1) rem_len 0
    setLen (y + 1) rem_len
    setChar y x 0
    setLen y x
    update fun s => { s with total_lines := total + 1, cur_y := y + 1, cur_x := 0, is_dirty := true }
  else pure ()

/-- A character is inserted at the cursor. -/
def insert_char (c : Byte) : E φ Unit := do
  let x ← gets fun s => s.cur_x
  let y ← gets fun s => s.cur_y
  let len ← getLen y
  forDown len x fun i => do
    let ch ← getChar y i
    setChar y (i + 1) ch
  setChar y x c
  setLen y (len + 1)
  update fun s => { s with cur_x := x + 1, is_dirty := true }

/-- A character is inserted if the line has room. -/
def insert_if_room (c : Byte) : E φ Bool := do
  let y ← gets fun s => s.cur_y
  let len ← getLen y
  if len < MAX_COLS - 1 then do
    insert_char c
    pure true
  else pure false

/-- Up to `n` spaces. -/
def key_tab : Nat → E φ Unit
  | 0 => pure ()
  | n + 1 => do
      if ← insert_if_room 32 then key_tab n else pure ()

/-- What a key does; false if it leaves the editor. -/
def key (fs : Option (FS_API φ)) (c : Byte) : E φ Bool := do
  if c = 0 then pure true else do
    update fun s => { s with status_msg := [] }
    if c = 17 then pure false
    else if c = 19 then do
      save_file fs
      pure true
    else if c = KEY_UP then do
      key_up
      pure true
    else if c = KEY_DOWN then do
      key_down
      pure true
    else if c = KEY_LEFT then do
      key_left
      pure true
    else if c = KEY_RIGHT then do
      key_right
      pure true
    else if c = 8 then do
      key_backspace
      pure true
    else if c = 10 then do
      key_enter
      pure true
    else if c = 9 then do
      key_tab 4
      pure true
    else if 32 ≤ c.toInt ∧ c.toInt ≤ 126 then do
      let _ ← insert_if_room c
      pure true
    else pure true

/-- The loop of `editor_open` while keys come; false if it was left. -/
def session (fs : Option (FS_API φ)) : List Byte → E φ Bool
  | [] => do
      adjust_scroll
      let _ ← render_editor
      pure true
  | c :: keys => do
      adjust_scroll
      let _ ← render_editor
      if ← key fs c then session fs keys else pure false

/-- `editor_open`, up to the point where it waits for a key behind `keys`. -/
def editor_open (fs : Option (FS_API φ)) (filepath : Path) (keys : List Byte) : E φ Bool :=
  if filepath = [] then pure false
  else do
    load_file fs filepath
    session fs keys

end Editor

end Eke
