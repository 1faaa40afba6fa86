/-
The line on the screen.

The shell does not know where the cursor is: it sends a character for every one that is typed, and
a backspace for every one that is erased.  What that does is said in two steps.  A roll that
`Spells` a text has it in its cells from the beginning of a row up to the cursor; a character makes
the text longer, and a backspace makes it shorter, except at the left edge, where the terminal
ignores it.  The text of a prompt with its line is then followed through the keys.  It goes wrong
where an erased character is the last one of a row, for the cursor is at the left edge then, and the
text is longer than the line from there on.
-/
import Eke.Kernel.Scrollback
import Eke.Kernel.ShellHistory

namespace Eke

open Shell Prog CString

/-! ### Texts on a roll -/

namespace Roll

variable {r : Roll} {y i : Nat} {v : Cell} {c : Byte} {cs : List Byte}

/-- The live cells, row after row. -/
def cell (r : Roll) (i : Nat) : Cell := r.live (i / VGA_WIDTH) (i % VGA_WIDTH)

/-- Where the next character goes. -/
def place (r : Roll) : Nat := r.row * VGA_WIDTH + r.column

/-- Nothing is behind the cursor. -/
structure Clear (r : Roll) : Prop where
  row_lt : r.row < VGA_HEIGHT
  column_lt : r.column < VGA_WIDTH
  blank : ∀ i, r.place ≤ i → i < VGA_HEIGHT * VGA_WIDTH → r.cell i = r.blank

/-- From the beginning of row `y` up to the cursor there is the text. -/
structure Spells (r : Roll) (y : Nat) (cs : List Byte) : Prop where
  clear : r.Clear
  place : r.place = y * VGA_WIDTH + cs.length
  chars : ∀ k (h : k < cs.length), r.cell (y * VGA_WIDTH + k) = vga_entry cs[k] r.color

theorem cell_put (h : r.column < VGA_WIDTH) : (r.put v).cell i = if i = r.place then v else r.cell i := by
  have hplace : (i / VGA_WIDTH = r.row ∧ i % VGA_WIDTH = r.column) ↔ i = r.place := by
    unfold place VGA_WIDTH at *
    omega
  exact if_congr hplace rfl rfl

theorem cell_advance (hi : i < (VGA_HEIGHT - 1) * VGA_WIDTH) :
    r.advance.cell i = r.cell (i + VGA_WIDTH) := by
  have hrow : i / VGA_WIDTH < VGA_HEIGHT - 1 := by
    unfold VGA_WIDTH VGA_HEIGHT at *
    omega
  unfold cell
  rw [Nat.add_div_right i (by decide), Nat.add_mod_right]
  exact congrFun (if_pos hrow) _

theorem cell_advance_last (hi : (VGA_HEIGHT - 1) * VGA_WIDTH ≤ i) : r.advance.cell i = r.blank := by
  have hrow : ¬ i / VGA_WIDTH < VGA_HEIGHT - 1 := by
    unfold VGA_WIDTH VGA_HEIGHT at *
    omega
  exact congrFun (if_neg hrow) _

/-! ### One character -/

theorem newline_stay (h : r.row + 1 ≠ VGA_HEIGHT) : r.newline = { r with column := 0, row := r.row + 1 } :=
  if_neg h

theorem newline_scroll (h : r.row + 1 = VGA_HEIGHT) :
    r.newline = { r with column := 0, row := r.row + 1 }.advance :=
  if_pos h

theorem newline_color (r : Roll) : r.newline.color = r.color := by
  by_cases hend : r.row + 1 = VGA_HEIGHT
  · rw [newline_scroll hend]
    rfl
  · rw [newline_stay hend]

theorem newline_column (r : Roll) : r.newline.column = 0 := by
  by_cases hend : r.row + 1 = VGA_HEIGHT
  · rw [newline_scroll hend]
    rfl
  · rw [newline_stay hend]

theorem Clear.newline (hrow : r.row < VGA_HEIGHT)
    (hblank : ∀ i, (r.row + 1) * VGA_WIDTH ≤ i → i < VGA_HEIGHT * VGA_WIDTH → r.cell i = r.blank) :
    r.newline.Clear := by
  by_cases hend : r.row + 1 = VGA_HEIGHT
  · rw [newline_scroll hend]
    exact ⟨Nat.lt_succ_self 24, Nat.succ_pos 79, fun i hi _ => cell_advance_last hi⟩
  · rw [newline_stay hend]
    exact ⟨by show r.row + 1 < VGA_HEIGHT; omega, Nat.succ_pos 79, hblank⟩

/-- A text that ends with its row is still there after a newline, maybe a row higher. -/
theorem newline_text {n : Nat} (hplace : (r.row + 1) * VGA_WIDTH = y * VGA_WIDTH + n)
    (hn : n < (VGA_HEIGHT - 1) * VGA_WIDTH) :
    ∃ y', r.newline.place = y' * VGA_WIDTH + n ∧
      ∀ k, k < n → r.newline.cell (y' * VGA_WIDTH + k) = r.cell (y * VGA_WIDTH + k) := by
  by_cases hend : r.row + 1 = VGA_HEIGHT
  · rw [newline_scroll hend]
    obtain ⟨z, rfl⟩ : ∃ z, y = z + 1 := by
      refine ⟨y - 1, ?_⟩
      unfold VGA_WIDTH VGA_HEIGHT at *
      omega
    refine ⟨z, ?_, fun k hk => ?_⟩
    · show (VGA_HEIGHT - 1) * VGA_WIDTH + 0 = _
      unfold VGA_WIDTH VGA_HEIGHT at *
      omega
    · rw [cell_advance (by unfold VGA_WIDTH VGA_HEIGHT at *; omega)]
      show r.cell (z * VGA_WIDTH + k + VGA_WIDTH) = _
      rw [Nat.succ_mul, Nat.add_right_comm]
  · rw [newline_stay hend]
    exact ⟨y, hplace, fun k _ => rfl⟩

/-- A character goes to the place of the cursor. -/
theorem Clear.put (h : r.Clear) :
    ∀ i, r.place < i → i < VGA_HEIGHT * VGA_WIDTH → (r.put v).cell i = r.blank := by
  intro i hi hlt
  rw [cell_put h.column_lt, if_neg (Nat.ne_of_gt hi)]
  exact h.blank i (Nat.le_of_lt hi) hlt

theorem put_char_other (hback : c ≠ 0x08) (hnl : c ≠ 0x0A) : r.put_char c =
    if r.column + 1 = VGA_WIDTH then (r.put (vga_entry c r.color)).newline
    else { r.put (vga_entry c r.color) with column := r.column + 1 } := by
  unfold put_char
  rw [if_neg hback, if_neg hnl]
  rfl

/-- Nothing is ever behind the cursor. -/
theorem Clear.put_char (h : r.Clear) (c : Byte) : (r.put_char c).Clear := by
  have hrow := h.row_lt
  have hcolumn := h.column_lt
  by_cases hback : c = 0x08
  · unfold Roll.put_char
    rw [if_pos hback]
    by_cases hleft : 0 < r.column
    · rw [if_pos hleft]
      have hcolumn' : r.column - 1 < VGA_WIDTH := by omega
      refine ⟨hrow, hcolumn', fun i hi hlt => ?_⟩
      rw [cell_put hcolumn']
      by_cases hthis : i = Roll.place { r with column := r.column - 1 }
      · rw [if_pos hthis]
        rfl
      · rw [if_neg hthis]
        have hplace : r.row * VGA_WIDTH + (r.column - 1) ≤ i := hi
        have hother : i ≠ r.row * VGA_WIDTH + (r.column - 1) := hthis
        exact h.blank i (by unfold Roll.place; omega) hlt
    · rw [if_neg hleft]
      exact h
  by_cases hnl : c = 0x0A
  · unfold Roll.put_char
    rw [if_neg hback, if_pos hnl]
    refine Clear.newline hrow fun i hi hlt => h.blank i ?_ hlt
    unfold Roll.place VGA_WIDTH at *
    omega
  rw [put_char_other hback hnl]
  by_cases hend : r.column + 1 = VGA_WIDTH
  · rw [if_pos hend]
    refine Clear.newline hrow fun i hi hlt => h.put i ?_ hlt
    have hnext : (r.row + 1) * VGA_WIDTH ≤ i := hi
    unfold Roll.place VGA_WIDTH at *
    omega
  · rw [if_neg hend]
    refine ⟨hrow, by show r.column + 1 < VGA_WIDTH; omega, fun i hi hlt => h.put i ?_ hlt⟩
    have hnext : r.row * VGA_WIDTH + (r.column + 1) ≤ i := hi
    unfold Roll.place
    omega

theorem Clear.putchar (h : r.Clear) (c : Byte) : (r.putchar c).Clear :=
  Clear.put_char (r := { r with offset := 0 }) ⟨h.row_lt, h.column_lt, h.blank⟩ c

theorem Clear.puts (h : r.Clear) (cs : List Byte) : (cs.foldl Roll.putchar r).Clear := by
  induction cs generalizing r with
  | nil => exact h
  | cons c cs ih => exact ih (h.putchar c)

/-- After any calls nothing is behind the cursor. -/
theorem runRoll_clear (calls : List TtyCall) : (runRoll calls).Clear := by
  have hcalls : ∀ (calls : List TtyCall) {r : Roll}, r.Clear → (calls.foldl TtyCall.step r).Clear := by
    intro calls
    induction calls with
    | nil =>
        intro r h
        exact h
    | cons call calls ih =>
        intro r h
        refine ih ?_
        cases call with
        | putchar c => exact h.putchar c
        | scroll_up lines => exact ⟨h.row_lt, h.column_lt, h.blank⟩
        | scroll_down lines => exact ⟨h.row_lt, h.column_lt, h.blank⟩
        | scroll_reset => exact ⟨h.row_lt, h.column_lt, h.blank⟩
  exact hcalls calls ⟨by decide, by decide, fun _ _ _ => rfl⟩

/-! ### Texts grow and shrink -/

/-- What a character does to a text that begins at the left edge. -/
def feed (cs : List Byte) (c : Byte) : List Byte :=
  if c = 0x08 then if cs.length % VGA_WIDTH = 0 then cs else cs.dropLast else cs ++ [c]

theorem Spells.column (h : r.Spells y cs) : r.column = cs.length % VGA_WIDTH := by
  have hplace := h.place
  have hcolumn := h.clear.column_lt
  unfold Roll.place VGA_WIDTH at *
  omega

theorem Spells.backspace (h : r.Spells y cs) : (r.put_char 0x08).Spells y (feed cs 0x08) := by
  have hplace := h.place
  have hcolumn := h.clear.column_lt
  have hedge := h.column
  have hclear := h.clear.put_char 0x08
  unfold feed
  rw [if_pos rfl]
  unfold put_char at hclear ⊢
  rw [if_pos rfl] at hclear ⊢
  by_cases hleft : 0 < r.column
  · rw [if_pos hleft] at hclear ⊢
    rw [if_neg (by omega)]
    refine ⟨hclear, ?_, fun k hk => ?_⟩
    · show r.row * VGA_WIDTH + (r.column - 1) = _
      rw [List.length_dropLast]
      unfold Roll.place at hplace
      unfold VGA_WIDTH at *
      omega
    · have hlt := hk
      rw [List.length_dropLast] at hlt
      have hother : y * VGA_WIDTH + k ≠ r.row * VGA_WIDTH + (r.column - 1) := by
        unfold Roll.place at hplace
        unfold VGA_WIDTH at *
        omega
      rw [cell_put (show r.column - 1 < VGA_WIDTH by omega), List.getElem_dropLast]
      exact (if_neg hother).trans (h.chars k (by omega))
  · rw [if_neg hleft, if_pos (by omega)]
    exact h

theorem Spells.char (h : r.Spells y cs) (hback : c ≠ 0x08) (hnl : c ≠ 0x0A)
    (hroom : cs.length + 1 < (VGA_HEIGHT - 1) * VGA_WIDTH) :
    ∃ y', (r.put_char c).Spells y' (cs ++ [c]) := by
  have hplace := h.place
  have hcolumn := h.clear.column_lt
  have hclear := h.clear.put_char c
  have hlength : (cs ++ [c]).length = cs.length + 1 := List.length_append
  have hwritten : ∀ k (hk : k < (cs ++ [c]).length),
      (r.put (vga_entry c r.color)).cell (y * VGA_WIDTH + k) = vga_entry (cs ++ [c])[k] r.color := by
    intro k hk
    rw [hlength] at hk
    rw [cell_put hcolumn, hplace]
    rcases Nat.lt_succ_iff_lt_or_eq.mp hk with hlt | rfl
    · rw [if_neg (by omega), List.getElem_append_left hlt]
      exact h.chars k hlt
    · rw [if_pos rfl, List.getElem_concat_length rfl]
  rw [put_char_other hback hnl] at hclear ⊢
  by_cases hend : r.column + 1 = VGA_WIDTH
  · rw [if_pos hend] at hclear ⊢
    have hnext : ((r.put (vga_entry c r.color)).row + 1) * VGA_WIDTH =
        y * VGA_WIDTH + (cs ++ [c]).length := by
      show (r.row + 1) * VGA_WIDTH = _
      rw [hlength]
      unfold Roll.place at hplace
      unfold VGA_WIDTH at *
      omega
    obtain ⟨y', hplace', hcells⟩ := newline_text hnext (by rw [hlength]; exact hroom)
    refine ⟨y', hclear, hplace', fun k hk => ?_⟩
    rw [hcells k hk, newline_color]
    exact hwritten k hk
  · rw [if_neg hend] at hclear ⊢
    refine ⟨y, hclear, ?_, hwritten⟩
    show r.row * VGA_WIDTH + (r.column + 1) = _
    rw [hlength]
    unfold Roll.place at hplace
    omega

theorem feed_length (cs : List Byte) (c : Byte) : (feed cs c).length ≤ cs.length + 1 := by
  unfold feed
  split
  · split
    · exact Nat.le_succ _
    · rw [List.length_dropLast]
      omega
  · rw [List.length_append, List.length_singleton]

/-- What is sent to the terminal goes to the text. -/
theorem Spells.feeds : ∀ (bs : List Byte) {r : Roll} {y : Nat} {cs : List Byte}, r.Spells y cs →
    r.offset = 0 → (∀ c ∈ bs, c ≠ 0x0A) → cs.length + bs.length < (VGA_HEIGHT - 1) * VGA_WIDTH →
    ∃ y', (bs.foldl putchar r).Spells y' (bs.foldl feed cs) ∧ (bs.foldl putchar r).offset = 0 := by
  intro bs
  induction bs with
  | nil =>
      intro r y cs h hoffset _ _
      exact ⟨y, h, hoffset⟩
  | cons c bs ih =>
      intro r y cs h hoffset hnl hroom
      have hlength := feed_length cs c
      rw [List.length_cons] at hroom
      have hlive : r.putchar c = r.put_char c := by
        unfold putchar
        rw [show { r with offset := 0 } = r by rw [← hoffset]]
      have hnext : ∃ y', (r.putchar c).Spells y' (feed cs c) := by
        rw [hlive]
        by_cases hback : c = 0x08
        · rw [hback]
          exact ⟨y, h.backspace⟩
        · have hfeed : feed cs c = cs ++ [c] := if_neg hback
          rw [hfeed]
          exact h.char hback (hnl c List.mem_cons_self) (by omega)
      obtain ⟨y', hy'⟩ := hnext
      refine ih hy' ?_ (fun d hd => hnl d (List.mem_cons_of_mem c hd)) (by omega)
      rw [hlive, put_char_offset]
      exact hoffset

/-- Erasing within a row takes characters off the end. -/
theorem feed_erase : ∀ {n : Nat} {cs : List Byte}, n ≤ cs.length % VGA_WIDTH →
    (List.replicate n 0x08).foldl feed cs = cs.take (cs.length - n) := by
  intro n
  induction n with
  | zero =>
      intro cs _
      exact (List.take_length).symm
  | succ n ih =>
      intro cs h
      have hfeed : feed cs 0x08 = cs.dropLast := by
        unfold feed
        rw [if_pos rfl, if_neg (by omega)]
      have hlength : cs.dropLast.length = cs.length - 1 := List.length_dropLast
      rw [List.replicate_succ, List.foldl_cons, hfeed, ih (by rw [hlength]; unfold VGA_WIDTH at *; omega),
        hlength, List.dropLast_eq_take, List.take_take]
      congr 1
      omega

/-- At the left edge nothing is erased. -/
theorem feed_stuck {n : Nat} (h : cs.length % VGA_WIDTH = 0) :
    (List.replicate n 0x08).foldl feed cs = cs := by
  induction n with
  | zero => rfl
  | succ n ih =>
      have hfeed : feed cs 0x08 = cs := by
        unfold feed
        rw [if_pos rfl, if_pos h]
      rw [List.replicate_succ, List.foldl_cons, hfeed, ih]

theorem feed_chars : ∀ {bs : List Byte} {cs : List Byte}, (∀ c ∈ bs, c ≠ 0x08) →
    bs.foldl feed cs = cs ++ bs := by
  intro bs
  induction bs with
  | nil =>
      intro cs _
      exact (List.append_nil cs).symm
  | cons c bs ih =>
      intro cs h
      have hfeed : feed cs c = cs ++ [c] := if_neg (h c List.mem_cons_self)
      rw [List.foldl_cons, hfeed, ih fun d hd => h d (List.mem_cons_of_mem c hd), List.append_assoc]
      rfl

end Roll

/-! ### The terminal and the roll -/

theorem Shows.puts (cs : List Byte) : ∀ {t : Tty} {r : Roll}, Shows t r →
    Shows (t.puts cs) (cs.foldl Roll.putchar r) := by
  induction cs with
  | nil =>
      intro t r h
      exact h
  | cons c cs ih =>
      intro t r h
      exact ih (h.putchar c)

/-- A live view shows the cells. -/
theorem Shows.cell {t : Tty} {r : Roll} (h : Shows t r) (hoffset : r.offset = 0) {i : Nat}
    (hi : i < VGA_HEIGHT * VGA_WIDTH) : t.VGA_BUFFER i = r.cell i := by
  have hrow : i / VGA_WIDTH < VGA_HEIGHT := Nat.div_lt_of_lt_mul (by rw [Nat.mul_comm]; exact hi)
  have hcolumn : i % VGA_WIDTH < VGA_WIDTH := Nat.mod_lt i (by decide)
  have hcell := (h.live hoffset).screen (i / VGA_WIDTH) hrow (i % VGA_WIDTH) hcolumn
  rw [Nat.mul_comm, Nat.div_add_mod] at hcell
  exact hcell

/-! ### Keys and texts -/

namespace Prompt

variable {p : Prompt} {c : Byte} {l m : List Byte}

/-- Printable characters. -/
def Plain (l : List Byte) : Prop := ∀ c ∈ l, 0x20 ≤ c ∧ c ≤ 0x7E

/-- Only printable characters are typed, so there are no others in the line, the history and the draft. -/
structure Printable (p : Prompt) : Prop where
  line : Plain p.line
  history : ∀ l ∈ p.history, Plain l
  draft : Plain p.draft

theorem Plain.getD {es : List (List Byte)} (h : ∀ l ∈ es, Plain l) (k : Nat) : Plain (es.getD k []) := by
  rw [List.getD_eq_getElem?_getD]
  cases hget : es[k]? with
  | none => exact nofun
  | some l => exact h l (List.mem_of_getElem? hget)

theorem Plain.no_control (h : Plain l) {d : Byte} (hd : ¬ (0x20 ≤ d ∧ d ≤ 0x7E)) : ∀ c ∈ l, c ≠ d := by
  rintro c hc rfl
  exact hd (h c hc)

theorem Printable.called (h : p.Printable) (k : Nat) : (p.called k).Printable :=
  ⟨Plain.getD h.history k, h.history, h.draft⟩

theorem Printable.up (h : p.Printable) : p.up.Printable := by
  unfold Prompt.up
  by_cases hnil : p.history = []
  · rw [if_pos hnil]
    exact h
  · rw [if_neg hnil]
    cases p.browse with
    | none => exact Printable.called (p := { p with draft := p.line }) ⟨h.line, h.history, h.line⟩ _
    | some k => exact h.called _

theorem Printable.down (h : p.Printable) : p.down.Printable := by
  unfold Prompt.down
  cases p.browse with
  | none => exact h
  | some k =>
      dsimp only
      split
      · exact h.called _
      · exact ⟨h.draft, h.history, h.draft⟩

theorem Printable.recorded (h : p.Printable) : ∀ l ∈ recorded p.history p.line, Plain l := by
  unfold Prompt.recorded
  intro l hl
  split at hl
  · exact h.history l hl
  · rcases List.mem_append.mp (List.mem_of_mem_drop hl) with hold | hnew
    · exact h.history l hold
    · rw [List.mem_singleton.mp hnew]
      exact h.line

theorem Printable.key (h : p.Printable) (c : Byte) : (p.key c).Printable := by
  refine p.key_cases (motive := fun _ q => q.Printable) (fun _ _ => h) ⟨nofun, h.history, nofun⟩ h.up h.down
    ?_ ⟨fun d hd => h.line d (List.mem_of_mem_dropLast hd), h.history, h.draft⟩ ?_ c
  · unfold Prompt.enter
    split
    · exact ⟨nofun, h.history, nofun⟩
    · exact ⟨nofun, h.recorded, nofun⟩
  · intro c hc
    unfold Prompt.type
    split
    · refine ⟨fun d hd => ?_, h.history, h.draft⟩
      rcases List.mem_append.mp hd with hold | hnew
      · exact h.line d hold
      · rw [List.mem_singleton.mp hnew]
        exact hc
    · exact h

theorem echo_type (p : Prompt) (h : 0x20 ≤ c ∧ c ≤ 0x7E) :
    p.echo c = if p.line.length < 127 then [c] else [] := by
  have hne : ∀ d : Byte, ¬ (0x20 ≤ d ∧ d ≤ 0x7E) → c ≠ d := fun d hd heq => hd (heq ▸ h)
  unfold echo
  rw [if_neg (hne 0 (by decide)), if_neg (hne 0x03 (by decide)), if_neg (hne Keyboard.KEY_UP (by decide)),
    if_neg (hne Keyboard.KEY_DOWN (by decide)), if_neg (hne 0x08 (by decide)), if_pos h]

/-- The characters of a line that fit behind the prompt in its row. -/
def FIRST_ROW : Nat := VGA_WIDTH - PROMPT.length

theorem text_length (l : List Byte) : (PROMPT ++ l).length = 5 + l.length := List.length_append

/-- Another line in place of one that ends in the row of the prompt. -/
theorem retyped_text (hm : Plain m) (h : l.length < FIRST_ROW) :
    (retyped l m).foldl Roll.feed (PROMPT ++ l) = PROMPT ++ m := by
  have hlength := text_length l
  have hshort : l.length < 75 := h
  unfold retyped
  rw [List.foldl_append, Roll.feed_erase (by rw [hlength]; unfold VGA_WIDTH; omega), hlength,
    Nat.add_sub_cancel, show (PROMPT ++ l).take 5 = PROMPT from List.take_left' rfl,
    Roll.feed_chars (hm.no_control (by decide))]

/-- Another line behind one that goes beyond the row of the prompt. -/
theorem retyped_length (hm : Plain m) (h : FIRST_ROW ≤ l.length) (hl : l.length ≤ 127) :
    ((retyped l m).foldl Roll.feed (PROMPT ++ l)).length = VGA_WIDTH + m.length := by
  have hlength := text_length l
  have hlong : 75 ≤ l.length := h
  have hrow : ((PROMPT ++ l).take VGA_WIDTH).length = VGA_WIDTH := by
    rw [List.length_take, hlength]
    unfold VGA_WIDTH
    omega
  have hfirst : (List.replicate (l.length - 75) 0x08).foldl Roll.feed (PROMPT ++ l) =
      (PROMPT ++ l).take VGA_WIDTH := by
    rw [Roll.feed_erase (by rw [hlength]; unfold VGA_WIDTH; omega), hlength]
    congr 1
    unfold VGA_WIDTH
    omega
  have hall : List.replicate l.length (0x08 : Byte) =
      List.replicate (l.length - 75) 0x08 ++ List.replicate 75 0x08 := by
    rw [List.replicate_append_replicate, Nat.sub_add_cancel hlong]
  unfold retyped
  rw [hall, List.foldl_append, List.foldl_append, hfirst, Roll.feed_stuck (by rw [hrow]; decide),
    Roll.feed_chars (hm.no_control (by decide)), List.length_append, hrow]

end Prompt

namespace Shell

variable {s : Shell} {p : Prompt} {commands : Commands} {y : Nat}

/-! ### The line on the screen -/

/-- The keys that a line is edited with. -/
def Edits (c : Byte) : Prop :=
  0x20 ≤ c ∧ c ≤ 0x7E ∨ c = 0x08 ∨ c = Keyboard.KEY_UP ∨ c = Keyboard.KEY_DOWN

instance : DecidablePred Edits := fun _ => inferInstanceAs (Decidable (_ ∨ _))

/-- From row `y` on the screen has the prompt and the characters typed so far, one row after the
other, then the cursor, and nothing behind it. -/
structure OnScreen (s : Shell) (y : Nat) : Prop where
  place : s.tty.terminal_row * VGA_WIDTH + s.tty.terminal_column =
    y * VGA_WIDTH + (PROMPT ++ s.typed).length
  cursor : s.tty.cursor = y * VGA_WIDTH + (PROMPT ++ s.typed).length
  chars : ∀ k (h : k < (PROMPT ++ s.typed).length),
    s.tty.VGA_BUFFER (y * VGA_WIDTH + k) = vga_entry (PROMPT ++ s.typed)[k] s.tty.terminal_color
  blank : ∀ i, y * VGA_WIDTH + (PROMPT ++ s.typed).length ≤ i → i < VGA_HEIGHT * VGA_WIDTH →
    s.tty.VGA_BUFFER i = vga_entry 0x20 s.tty.terminal_color

def LineShown (s : Shell) : Prop := ∃ y, OnScreen s y

/-- The shell after a key. -/
def next (commands : Commands) (s : Shell) (c : { c // Edits c }) : Shell := (key commands c s).state

/-- A prompt was just printed, at the left edge of a terminal that has nothing behind its cursor. -/
structure Prompted (s : Shell) : Prop where
  stands : ∃ p, Stands s p ∧ p.Printable ∧ p.line = []
  printed : ∃ t r, Shows t r ∧ r.Clear ∧ r.column = 0 ∧ s.tty = t.puts PROMPT

/-- No character is erased across the end of a row. -/
def Straight (s : Shell) (c : { c // Edits c }) : Prop :=
  (c.val = 0x08 → s.pos ≠ Prompt.FIRST_ROW) ∧
    (c.val = Keyboard.KEY_UP → 0 < s.shell_hist_count → s.pos < Prompt.FIRST_ROW) ∧
    (c.val = Keyboard.KEY_DOWN → s.shell_hist_browse ≠ -1 → s.pos < Prompt.FIRST_ROW)

/-- The terminal shows a roll with the text. -/
structure Screen (t : Tty) (y : Nat) (cs : List Byte) (r : Roll) : Prop where
  shows : Shows t r
  live : r.offset = 0
  spells : r.Spells y cs

/-- What is sent to the terminal goes to the text. -/
theorem Screen.puts {t : Tty} {cs : List Byte} {r : Roll} (h : Screen t y cs r) (bs : List Byte)
    (hnl : ∀ c ∈ bs, c ≠ 0x0A) (hroom : cs.length + bs.length < (VGA_HEIGHT - 1) * VGA_WIDTH) :
    ∃ y', Screen (t.puts bs) y' (bs.foldl Roll.feed cs) (bs.foldl Roll.putchar r) := by
  obtain ⟨y', hspells, hlive⟩ := h.spells.feeds bs h.live hnl hroom
  exact ⟨y', h.shows.puts bs, hlive, hspells⟩

/-- The line is on the screen if the text is the prompt with the line, and not if its length is
that of another place in a row. -/
theorem Screen.shown {cs : List Byte} {r : Roll} (h : Screen s.tty y cs r) (hs : Stands s p) :
    (cs = PROMPT ++ p.line → LineShown s) ∧
      (cs.length % VGA_WIDTH ≠ (PROMPT ++ p.line).length % VGA_WIDTH → ¬ LineShown s) := by
  have hk := h.shows.keeps
  have hplace := h.spells.place
  have hcursor := h.shows.cursor
  rw [if_pos h.live] at hcursor
  unfold Roll.place at hplace
  constructor
  · rintro rfl
    have hbelow : y * VGA_WIDTH + (PROMPT ++ p.line).length < VGA_HEIGHT * VGA_WIDTH := by
      have hrow := h.shows.row_lt
      have hcolumn := h.shows.column_lt
      rw [← hplace]
      unfold VGA_WIDTH VGA_HEIGHT at *
      omega
    refine ⟨y, ?_, ?_, ?_, ?_⟩
    · rw [hs.typed, hk.row, hk.column]
      exact hplace
    · rw [hs.typed, hcursor]
      exact hplace
    · rw [hs.typed]
      intro k hlt
      rw [h.shows.cell h.live (by omega), hk.color]
      exact h.spells.chars k hlt
    · rw [hs.typed]
      intro i hi hlt
      rw [h.shows.cell h.live hlt, hk.color]
      exact h.spells.clear.blank i (by unfold Roll.place; omega) hlt
  · rintro hne ⟨z, hshown⟩
    have hthere := hshown.place
    rw [hs.typed, hk.row, hk.column, hplace] at hthere
    refine hne ?_
    unfold VGA_WIDTH at *
    omega

/-! ### One key -/

theorem straight_type {c : Byte} (hc : 0x20 ≤ c ∧ c ≤ 0x7E) : Straight s ⟨c, Or.inl hc⟩ := by
  have hne : ∀ d : Byte, ¬ (0x20 ≤ d ∧ d ≤ 0x7E) → c ≠ d := fun d hd heq => hd (heq ▸ hc)
  exact ⟨fun h => absurd h (hne _ (by decide)), fun h => absurd h (hne _ (by decide)),
    fun h => absurd h (hne _ (by decide))⟩

theorem keys_apart : (0x08 : Byte) ≠ Keyboard.KEY_UP ∧ (0x08 : Byte) ≠ Keyboard.KEY_DOWN ∧
    Keyboard.KEY_UP ≠ Keyboard.KEY_DOWN := by
  decide

theorem straight_backspace {hc : Edits 0x08} : Straight s ⟨0x08, hc⟩ ↔ s.pos ≠ Prompt.FIRST_ROW :=
  ⟨fun h => h.1 rfl, fun h => ⟨fun _ => h, fun heq => absurd heq keys_apart.1,
    fun heq => absurd heq keys_apart.2.1⟩⟩

theorem straight_up {hc : Edits Keyboard.KEY_UP} :
    Straight s ⟨Keyboard.KEY_UP, hc⟩ ↔ (0 < s.shell_hist_count → s.pos < Prompt.FIRST_ROW) :=
  ⟨fun h => h.2.1 rfl, fun h => ⟨fun heq => absurd heq.symm keys_apart.1, fun _ => h,
    fun heq => absurd heq keys_apart.2.2⟩⟩

theorem straight_down {hc : Edits Keyboard.KEY_DOWN} :
    Straight s ⟨Keyboard.KEY_DOWN, hc⟩ ↔ (s.shell_hist_browse ≠ -1 → s.pos < Prompt.FIRST_ROW) :=
  ⟨fun h => h.2.2 rfl, fun h => ⟨fun heq => absurd heq.symm keys_apart.2.1,
    fun heq => absurd heq.symm keys_apart.2.2, fun _ => h⟩⟩

/-- A key that is straight makes the text the new line, and one that is not gives it another length. -/
structure Follows (s : Shell) (c : { c // Edits c }) (before bs after : List Byte) : Prop where
  straight : Straight s c → bs.foldl Roll.feed (PROMPT ++ before) = PROMPT ++ after
  astray : ¬ Straight s c →
    (bs.foldl Roll.feed (PROMPT ++ before)).length % VGA_WIDTH ≠ (PROMPT ++ after).length % VGA_WIDTH
  no_newline : ∀ d ∈ bs, d ≠ 0x0A
  length : bs.length ≤ 254

theorem Follows.retyped {c : { c // Edits c }} {l m : List Byte} (hl : l.length ≤ 127) (hm : m.length ≤ 127)
    (hplain : Prompt.Plain m) (hc : Straight s c ↔ l.length < Prompt.FIRST_ROW) :
    Follows s c l (Prompt.retyped l m) m := by
  refine ⟨fun h => Prompt.retyped_text hplain (hc.mp h), fun h => ?_, fun d hd => ?_, ?_⟩
  · have hlong : Prompt.FIRST_ROW ≤ l.length := Nat.le_of_not_lt fun hlt => h (hc.mpr hlt)
    rw [Prompt.retyped_length hplain hlong hl, Prompt.text_length]
    unfold VGA_WIDTH
    omega
  · rcases List.mem_append.mp hd with herase | hchar
    · rw [List.eq_of_mem_replicate herase]
      decide
    · exact hplain.no_control (by decide) d hchar
  · unfold Prompt.retyped
    rw [List.length_append, List.length_replicate]
    omega

/-- Nothing is sent, and the line stays. -/
theorem Follows.idle {c : { c // Edits c }} (l : List Byte) (hc : Straight s c) : Follows s c l [] l :=
  ⟨fun _ => rfl, fun h => absurd hc h, nofun, Nat.zero_le _⟩

theorem Stands.length_le (h : Stands s p) : p.line.length ≤ 127 := Nat.le_of_lt_succ h.line.room

theorem Stands.follows (h : Stands s p) (hp : p.Printable) (c : { c // Edits c })
    (hnext : (p.key c).line.length ≤ 127) : Follows s c p.line (p.echo c) (p.key c).line := by
  have hlength := h.length_le
  have hpos := h.pos
  have hcount := h.count
  have hprintable := hp.key c
  obtain ⟨c, hc⟩ := c
  dsimp only at hnext hprintable ⊢
  rcases hc with htype | rfl | rfl | rfl
  · have hstraight : Straight s ⟨c, Or.inl htype⟩ := straight_type htype
    rw [p.echo_type htype, p.key_type htype]
    unfold Prompt.type
    by_cases hroom : p.line.length < 127
    · rw [if_pos hroom, if_pos hroom]
      have hne : ∀ d ∈ [c], ¬ (0x20 ≤ d ∧ d ≤ 0x7E) → False := by
        intro d hd hnot
        rw [List.mem_singleton.mp hd] at hnot
        exact hnot htype
      refine ⟨fun _ => ?_, fun hnot => absurd hstraight hnot, ?_,
        show 1 ≤ 254 by decide⟩
      · rw [Roll.feed_chars fun d hd heq => hne d hd (by rw [heq]; decide), List.append_assoc]
      · rintro d hd rfl
        exact hne _ hd (by decide)
    · rw [if_neg hroom, if_neg hroom]
      exact .idle _ hstraight
  · show Follows s _ p.line (if p.line = [] then [] else [0x08]) p.line.dropLast
    by_cases hnil : p.line = []
    · rw [if_pos hnil, hnil]
      rw [hnil] at hpos
      exact .idle _ (straight_backspace.mpr (by rw [hpos]; decide))
    · have hlen : 0 < p.line.length := List.length_pos_iff.mpr hnil
      have htext := Prompt.text_length p.line
      rw [if_neg hnil]
      refine ⟨fun hstraight => ?_, fun hnot => ?_, by decide, by decide⟩
      · have hinside : p.line.length ≠ 75 := by
          rw [← hpos]
          exact straight_backspace.mp hstraight
        have hleft : ¬ (PROMPT ++ p.line).length % VGA_WIDTH = 0 := by
          rw [htext]
          unfold VGA_WIDTH
          omega
        show Roll.feed (PROMPT ++ p.line) 0x08 = _
        unfold Roll.feed
        rw [if_pos rfl, if_neg hleft, List.dropLast_append_of_ne_nil hnil]
      · have hedge : p.line.length = 75 := by
          rw [← hpos]
          exact not_not.mp fun hne => hnot (straight_backspace.mpr hne)
        have hstuck : (PROMPT ++ p.line).length % VGA_WIDTH = 0 := by
          rw [htext, hedge]
          rfl
        have hfeed : [0x08].foldl Roll.feed (PROMPT ++ p.line) = PROMPT ++ p.line := by
          show Roll.feed (PROMPT ++ p.line) 0x08 = _
          unfold Roll.feed
          rw [if_pos rfl, if_pos hstuck]
        rw [hfeed, hstuck, Prompt.text_length, List.length_dropLast, hedge]
        decide
  · show Follows s _ p.line (if p.history = [] then [] else Prompt.retyped p.line p.up.line) p.up.line
    by_cases hnil : p.history = []
    · have hup : p.up = p := if_pos hnil
      rw [if_pos hnil, hup]
      rw [hnil] at hcount
      refine .idle _ (straight_up.mpr fun hlt => ?_)
      rw [hcount] at hlt
      exact absurd hlt (Nat.lt_irrefl 0)
    · have hlen : 0 < p.history.length := List.length_pos_iff.mpr hnil
      rw [if_neg hnil]
      refine .retyped hlength hnext hprintable.line (straight_up.trans ?_)
      rw [← hpos]
      exact ⟨fun h => h (by omega), fun h _ => h⟩
  · show Follows s _ p.line (if p.browse = none then [] else Prompt.retyped p.line p.down.line) p.down.line
    cases hbrowse : p.browse with
    | none =>
        have hdown : p.down = p := by
          unfold Prompt.down
          rw [hbrowse]
        rw [if_pos rfl, hdown]
        refine .idle _ (straight_down.mpr fun hne => absurd ?_ hne)
        rw [h.browse, hbrowse]
        rfl
    | some k =>
        have hwalk : s.shell_hist_browse ≠ -1 := by
          rw [h.browse, hbrowse, browseIndex_some]
          omega
        rw [if_neg (Option.some_ne_none k)]
        refine .retyped hlength hnext hprintable.line (straight_down.trans ?_)
        rw [← hpos]
        exact ⟨fun h => h hwalk, fun h _ => h⟩

/-- What holds while a line is edited and all is well. -/
structure Editing (s : Shell) (p : Prompt) (y : Nat) (r : Roll) : Prop where
  stands : Stands s p
  printable : p.Printable
  screen : Screen s.tty y (PROMPT ++ p.line) r

theorem Editing.shown {r : Roll} (h : Editing s p y r) : LineShown s := (h.screen.shown h.stands).1 rfl

/-- One key: the line is still on the screen exactly when the key is straight. -/
theorem Editing.key {r : Roll} (h : Editing s p y r) (commands : Commands) (c : { c // Edits c }) :
    (Straight s c → ∃ p' y' r', Editing (next commands s c) p' y' r') ∧
      (¬ Straight s c → ¬ LineShown (next commands s c)) := by
  obtain ⟨s', hrun, hs', htty⟩ := key_ok commands h.stands c
  have hnext : next commands s c = s' := by
    unfold next
    rw [hrun]
    rfl
  have henter : c.val ≠ 0x0A := by
    intro heq
    have hc := c.property
    rw [heq] at hc
    exact absurd hc (by decide)
  have hfollows := h.stands.follows h.printable c hs'.length_le
  have hlength := h.stands.length_le
  have hsent := hfollows.length
  have hroom : (PROMPT ++ p.line).length + (p.echo c).length < (VGA_HEIGHT - 1) * VGA_WIDTH := by
    rw [Prompt.text_length]
    unfold VGA_WIDTH VGA_HEIGHT
    omega
  obtain ⟨y', hscreen⟩ := h.screen.puts (p.echo c) hfollows.no_newline hroom
  rw [← htty henter] at hscreen
  rw [hnext]
  constructor
  · intro hstraight
    rw [hfollows.straight hstraight] at hscreen
    exact ⟨_, _, _, hs', h.printable.key c, hscreen⟩
  · intro hnot
    exact (hscreen.shown hs').2 (hfollows.astray hnot)

/-! ### Sessions -/

theorem Prompted.editing (h : Prompted s) : ∃ p y r, Editing s p y r := by
  obtain ⟨p, hs, hp, hnil⟩ := h.stands
  obtain ⟨t, r, hshows, hclear, hcolumn, htty⟩ := h.printed
  -- the first character of the prompt makes the view live
  have hlive : PROMPT.foldl Roll.putchar r = PROMPT.foldl Roll.putchar { r with offset := 0 } := rfl
  have hstart : Roll.Spells { r with offset := 0 } r.row [] := by
    refine ⟨⟨hclear.row_lt, hclear.column_lt, hclear.blank⟩, ?_, nofun⟩
    show r.row * VGA_WIDTH + r.column = _
    rw [hcolumn]
    rfl
  obtain ⟨y, hspells, hoffset⟩ := hstart.feeds PROMPT rfl (by decide) (by decide)
  rw [← hlive] at hspells hoffset
  refine ⟨p, y, _, hs, hp, ?_, hoffset, ?_⟩
  · rw [htty]
    exact hshows.puts PROMPT
  · rw [hnil, List.append_nil]
    exact hspells

/-- What is true of a line that is being edited with a roll behind the screen. -/
def Edited (s : Shell) : Prop := ∃ p y r, Editing s p y r

theorem shown_iff (commands : Commands) (h : Prompted s) (cs : List { c // Edits c }) :
    Throughout (next commands) (fun s c => LineShown (next commands s c)) s cs ↔
      Throughout (next commands) Straight s cs := by
  have hkey : ∀ s c, Edited s → (LineShown (next commands s c) ↔ Straight s c) := by
    rintro s c ⟨p, y, r, hs⟩
    obtain ⟨hgood, hbad⟩ := hs.key commands c
    constructor
    · intro hshown
      exact not_not.mp fun hnot => hbad hnot hshown
    · intro hstraight
      obtain ⟨p', y', r', hs'⟩ := hgood hstraight
      exact hs'.shown
  refine Throughout.congr hkey (fun s c hs hshown => ?_) h.editing
  have hstraight := (hkey s c hs).mp hshown
  obtain ⟨p, y, r, hs⟩ := hs
  exact (hs.key commands c).1 hstraight

/-- **The line on the screen.**  After a prompt the screen shows the empty line; and it shows the
line after every key of a session exactly if no key of it erases across the end of a row. -/
theorem line_shown_iff (commands : Commands) (h : Prompted s) (cs : List { c // Edits c }) :
    LineShown s ∧
      (Throughout (next commands) (fun s c => LineShown (next commands s c)) s cs ↔
        Throughout (next commands) Straight s cs) := by
  obtain ⟨p, y, r, hs⟩ := h.editing
  exact ⟨hs.shown, shown_iff commands h cs⟩

/-- The first prompt, on a terminal that shows a roll. -/
theorem start_prompted (line : Nat → Byte) {t : Tty} {r : Roll} (h : Shows t r) (hclear : r.Clear) :
    Prompted (start line t) := by
  have hsplit : WELCOME.dropLast ++ [0x0A] = WELCOME := by decide
  have hcolumn : (WELCOME.foldl Roll.putchar r).column = 0 := by
    rw [← hsplit, List.foldl_append]
    generalize WELCOME.dropLast.foldl Roll.putchar r = r'
    exact Roll.newline_column _
  exact ⟨⟨_, start_ok line t, ⟨nofun, nofun, nofun⟩, rfl⟩,
    ⟨t.puts WELCOME, _, h.puts WELCOME, hclear.puts WELCOME, hcolumn, start_tty line t⟩⟩

/-- A character is typed at the first prompt. -/
theorem start_shown : LineShown (start (fun _ => 0) (Tty.terminal_initialize .zero)) ∧
    (Throughout (next silent) (fun s c => LineShown (next silent s c))
        (start (fun _ => 0) (Tty.terminal_initialize .zero)) [⟨0x61, by decide⟩] ↔
      Throughout (next silent) Straight (start (fun _ => 0) (Tty.terminal_initialize .zero))
        [⟨0x61, by decide⟩]) :=
  line_shown_iff silent (start_prompted _ initialize_shows (Roll.runRoll_clear [])) _

/-- A prompt with a command of 75 characters in the history. -/
def longEntry : Shell where
  line := fun _ => 0
  pos := 0
  shell_history := fun _ i => if i < 75 then 0x61 else 0
  shell_hist_count := 1
  shell_hist_browse := -1
  shell_draft := fun _ => 0
  tty := (Tty.terminal_initialize .zero).puts PROMPT

theorem long_holds : Holds LINE_SIZE (fun i => if i < 75 then 0x61 else 0) (List.replicate 75 0x61) := by
  refine ⟨by decide, fun c hc => ?_, fun k hk => ?_, rfl⟩
  · rw [List.eq_of_mem_replicate hc]
    decide
  · rw [List.length_replicate] at hk
    rw [List.getElem_replicate]
    exact if_pos hk

theorem longEntry_stands : Stands longEntry ⟨[], [List.replicate 75 0x61], none, []⟩ := by
  refine ⟨rfl, .nil (by decide) rfl, rfl, fun k hk => ?_, rfl, .nil (by decide) rfl, by decide, nofun⟩
  obtain rfl : k = 0 := Nat.lt_one_iff.mp hk
  exact long_holds

theorem longEntry_prompted : Prompted longEntry := by
  refine ⟨⟨_, longEntry_stands, ⟨nofun, fun l hl c hc => ?_, nofun⟩, rfl⟩,
    ⟨_, _, initialize_shows, Roll.runRoll_clear [], rfl, by simp only [longEntry]⟩⟩
  rw [List.mem_singleton.mp hl] at hc
  rw [List.eq_of_mem_replicate hc]
  decide

/-- Up and Backspace: the last character of the row is still there, and the cursor behind it. -/
theorem line_astray : ¬ ∀ (commands : Commands) (s : Shell) (cs : List { c // Edits c }), Prompted s →
    Throughout (next commands) (fun s c => LineShown (next commands s c)) s cs := by
  intro hall
  have hstraight := (shown_iff silent longEntry_prompted _).mp
    (hall silent longEntry [⟨Keyboard.KEY_UP, by decide⟩, ⟨0x08, by decide⟩] longEntry_prompted)
  obtain ⟨s', hrun, hs', -⟩ := key_ok silent longEntry_stands Keyboard.KEY_UP
  have hnext : next silent longEntry ⟨Keyboard.KEY_UP, by decide⟩ = s' := by
    unfold next
    rw [hrun]
    rfl
  have hback := hstraight.2.1.1 rfl
  rw [hnext] at hback
  exact hback hs'.pos

end Shell

end Eke
