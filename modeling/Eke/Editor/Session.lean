/-
A session of the editor.

A valid state is one the arrays hold a document in; it can be read back from them.  Every key
takes the document to what the key means, so a session stays valid from the file it opens to its
last key, and the cursor is on the screen whenever the screen is drawn.
-/
import Eke.Editor.Loading

namespace Eke

namespace Editor

open Prog

variable {φ : Type} {s t : Editor φ} {d : Document} {fs : Option (FS_API φ)} {path : Path}

/-- What holds between the keys: the lines, their lengths and the cursor are within their bounds,
and every line has its terminator. -/
structure Valid (s : Editor φ) : Prop where
  total : 1 ≤ s.total_lines ∧ s.total_lines ≤ MAX_LINES
  y : 0 ≤ s.cur_y ∧ s.cur_y < s.total_lines
  x : 0 ≤ s.cur_x ∧ s.cur_x ≤ s.line_lens s.cur_y
  len : ∀ i, 0 ≤ i → i < s.total_lines → 0 ≤ s.line_lens i ∧ s.line_lens i ≤ MAX_COLS - 1
  ended : ∀ i, 0 ≤ i → i < s.total_lines → s.lines i (s.line_lens i) = 0

/-- The line `y` of the arrays. -/
def rowView (s : Editor φ) (y : Nat) : List Byte :=
  (List.range (s.line_lens y).toNat).map fun x : Nat => s.lines y x

/-- The document in the arrays. -/
def view (s : Editor φ) : Document :=
  { lines := (List.range s.total_lines.toNat).map s.rowView, y := s.cur_y.toNat, x := s.cur_x.toNat }

/-! ### The document of a valid state -/

theorem rowView_length (y : Nat) : (s.rowView y).length = (s.line_lens y).toNat := by
  rw [rowView, List.length_map, List.length_range]

theorem rowView_row {y : Nat} (hlen : 0 ≤ s.line_lens y) (hend : s.lines y (s.line_lens y) = 0) :
    Row s y (s.rowView y) := by
  have hl := rowView_length (s := s) y
  refine ⟨by omega, fun i hi => ?_⟩
  by_cases hlt : i < (s.rowView y).length
  · rw [List.getD_eq_getElem _ _ hlt]
    simp only [rowView, List.getElem_map, List.getElem_range]
  · rw [List.getD_eq_default _ _ (by omega), show (i : Int) = s.line_lens y by omega]
    exact hend

theorem view_getElem? {j : Nat} {l : List Byte} (h : (view s).lines[j]? = some l) :
    j < s.total_lines.toNat ∧ s.rowView j = l := by
  obtain ⟨hlt, hl⟩ := List.getElem?_eq_some_iff.mp h
  simp only [view, List.length_map, List.length_range] at hlt
  simp only [view, List.getElem_map, List.getElem_range] at hl
  exact ⟨hlt, hl⟩

theorem Valid.holds (h : Valid s) : Holds s (view s) := by
  have ht := h.total
  have hy := h.y
  have hx := h.x
  unfold MAX_LINES at ht
  have hlines : (view s).lines.length = s.total_lines.toNat := by
    rw [view, List.length_map, List.length_range]
  have hrow : ∀ j, j < s.total_lines.toNat → (view s).line j = s.rowView j := by
    intro j hj
    rw [Document.line, List.getD_eq_getElem _ _ (by omega)]
    simp only [view, List.getElem_map, List.getElem_range]
  refine ⟨⟨by omega, ?_, ?_, fun l hl => ?_⟩, by omega, ?_, ?_, fun j l hj => ?_⟩
  · rw [hlines]
    show s.cur_y.toNat < _
    omega
  · show s.cur_x.toNat ≤ ((view s).line s.cur_y.toNat).length
    rw [hrow _ (by omega), rowView_length, show ((s.cur_y.toNat : Nat) : Int) = s.cur_y by omega]
    omega
  · obtain ⟨j, hj, rfl⟩ := List.mem_map.mp hl
    have hlen := h.len j (by omega) (by have := List.mem_range.mp hj; omega)
    unfold MAX_COLS at hlen
    rw [rowView_length]
    omega
  · show s.cur_y = (s.cur_y.toNat : Nat)
    omega
  · show s.cur_x = (s.cur_x.toNat : Nat)
    omega
  · obtain ⟨hlt, rfl⟩ := view_getElem? hj
    exact rowView_row (h.len j (by omega) (by omega)).1 (h.ended j (by omega) (by omega))

theorem Holds.valid (h : Holds s d) : Valid s := by
  have hy := h.good.y_lt
  have hmax := h.good.lines_max
  have hrow : ∀ i : Int, 0 ≤ i → i < s.total_lines →
      0 ≤ s.line_lens i ∧ s.line_lens i ≤ 73 ∧ s.lines i (s.line_lens i) = 0 := by
    intro i h0 hi
    have ht := h.total
    have hr := h.row_at (j := i.toNat) (by omega)
    have hle := h.good.line_le (y := i.toNat) (by omega)
    rw [Int.toNat_of_nonneg h0] at hr
    have hlen := hr.len
    have hend := hr.chars _ (Nat.le_refl _)
    rw [← hlen, List.getD_eq_default _ _ (Nat.le_refl _)] at hend
    exact ⟨by omega, by omega, hend⟩
  have hlen := h.row.len
  have hx := h.good.x_le
  refine ⟨?_, ?_, ?_, fun i h0 hi => ?_, fun i h0 hi => (hrow i h0 hi).2.2⟩
  · rw [h.total]
    unfold MAX_LINES
    omega
  · rw [h.total, h.y]
    omega
  · rw [h.x, h.y, hlen]
    omega
  · have := hrow i h0 hi
    unfold MAX_COLS
    omega

theorem Row.view {y : Nat} {l : List Byte} (h : Row s y l) : s.rowView y = l := by
  have hlen := h.len
  refine List.ext_getElem ?_ fun i h1 h2 => ?_
  · rw [rowView_length]
    omega
  · have hc := h.chars i (Nat.le_of_lt h2)
    rw [List.getD_eq_getElem _ _ h2] at hc
    simpa only [rowView, List.getElem_map, List.getElem_range] using hc

/-- The arrays hold one document only. -/
theorem Holds.view (h : Holds s d) : view s = d := by
  have ht := h.total
  have hy := h.y
  have hx := h.x
  have hlines : (Editor.view s).lines = d.lines := by
    refine List.ext_getElem ?_ fun j h1 h2 => ?_
    · rw [Editor.view, List.length_map, List.length_range]
      omega
    · simp only [Editor.view, List.getElem_map, List.getElem_range]
      exact (h.rows j _ (List.getElem?_eq_getElem h2)).view
  cases d with
  | mk lines y x =>
      unfold Editor.view at hlines ⊢
      simp only [Document.mk.injEq]
      exact ⟨hlines, (congrArg Int.toNat hy).trans (Int.toNat_natCast y), (congrArg Int.toNat hx).trans (Int.toNat_natCast x)⟩

/-! ### Keys -/

theorem Holds.clear_status (h : Holds s d) : Holds { s with status_msg := [] } d :=
  ⟨h.good, h.total, h.y, h.x, fun j l hj => ⟨(h.rows j l hj).len, (h.rows j l hj).chars⟩⟩

theorem printable_iff (c : Byte) : (32 ≤ c.toInt ∧ c.toInt ≤ 126) ↔ (32 ≤ c.toNat ∧ c.toNat ≤ 126) := by
  have := c.isLt
  rw [BitVec.toInt_eq_toNat_cond]
  split
  · omega
  · omega

/-- What a handler does to the document is what the key does. -/
theorem Leads.then {x : E φ Unit} (h : Leads x s () d) : ∃ t, (do x; pure true : E φ Bool) s = .ok true t ∧
    Holds t d ∧ t.scroll_y = s.scroll_y := by
  obtain ⟨t, ht, hdoc, hframe⟩ := h
  exact ⟨t, bind_of_ok ht, hdoc, hframe.scroll_y⟩

/-- Every key ends, with the document it means. -/
theorem key_leads (fs : Option (FS_API φ)) (h : Holds s d) (c : Byte) : ∃ t,
    key fs c s = .ok (decide (c ≠ 17)) t ∧ Holds t (d.key c) ∧ t.scroll_y = s.scroll_y := by
  have hs := h.clear_status
  unfold key Document.key
  by_cases h0 : c = 0
  · subst h0
    exact ⟨s, rfl, h, rfl⟩
  rw [if_neg h0, bind_update]
  by_cases h17 : c = 17
  · subst h17
    exact ⟨_, rfl, hs, rfl⟩
  rw [if_neg h17, decide_eq_true h17]
  by_cases h19 : c = 19
  · subst h19
    rw [if_pos rfl]
    cases fs with
    | none => exact ⟨_, rfl, hs, rfl⟩
    | some fs => exact ⟨_, bind_of_ok (save_file_ok fs hs), afterSave_holds fs hs _, rfl⟩
  rw [if_neg h19]
  unfold KEY_UP KEY_DOWN KEY_LEFT KEY_RIGHT
  by_cases hup : c = 0x80
  · rw [if_pos hup, if_pos hup]
    exact (key_up_leads hs).then
  rw [if_neg hup, if_neg hup]
  by_cases hdown : c = 0x81
  · rw [if_pos hdown, if_pos hdown]
    exact (key_down_leads hs).then
  rw [if_neg hdown, if_neg hdown]
  by_cases hleft : c = 0x82
  · rw [if_pos hleft, if_pos hleft]
    exact (key_left_leads hs).then
  rw [if_neg hleft, if_neg hleft]
  by_cases hright : c = 0x83
  · rw [if_pos hright, if_pos hright]
    exact (key_right_leads hs).then
  rw [if_neg hright, if_neg hright]
  by_cases h8 : c = 8
  · rw [if_pos h8, if_pos h8]
    exact (key_backspace_leads hs).then
  rw [if_neg h8, if_neg h8]
  by_cases h10 : c = 10
  · rw [if_pos h10, if_pos h10]
    exact (key_enter_leads hs).then
  rw [if_neg h10, if_neg h10]
  by_cases h9 : c = 9
  · rw [if_pos h9, if_pos h9]
    exact (key_tab_leads 4 hs).then
  rw [if_neg h9, if_neg h9]
  by_cases hprint : 32 ≤ c.toInt ∧ c.toInt ≤ 126
  · rw [if_pos hprint, if_pos ((printable_iff c).mp hprint)]
    obtain ⟨t, ht, hdoc, hframe⟩ := insert_if_room_leads hs c
    exact ⟨t, bind_of_ok ht, hdoc, hframe.scroll_y⟩
  · rw [if_neg hprint, if_neg fun hc => hprint ((printable_iff c).mpr hc)]
    exact ⟨_, rfl, hs, rfl⟩

/-- A valid state stays valid, and its document becomes what the key makes of it. -/
theorem key_refines (fs : Option (FS_API φ)) (s : Editor φ) (h : Valid s) (c : Byte) :
    ∃ b t, key fs c s = .ok b t ∧ Valid t ∧ view t = (view s).key c := by
  obtain ⟨t, ht, hdoc, -⟩ := key_leads fs h.holds c
  exact ⟨_, t, ht, hdoc.valid, hdoc.view⟩

/-- An editor that has read nothing. -/
def fresh (files : φ) : Editor φ :=
  { lines := fun _ _ => 0, line_lens := fun _ => 0, total_lines := 1, cur_x := 0, cur_y := 0, scroll_y := 0
    filename := [], status_msg := [], is_dirty := false, files := files, written := [] }

theorem fresh_valid (files : φ) : Valid (fresh files) :=
  ⟨⟨Int.le_refl 1, (by decide : (1 : Int) ≤ 128)⟩, ⟨Int.le_refl 0, Int.zero_lt_one⟩, ⟨Int.le_refl 0, Int.le_refl 0⟩,
    fun _ _ _ => ⟨Int.le_refl 0, (by decide : (0 : Int) ≤ 73)⟩, fun _ _ _ => rfl⟩

theorem key_refines_fresh : ∃ b t, key none 97 (fresh ()) = .ok b t ∧ Valid t ∧
    view t = (view (fresh ())).key 97 :=
  key_refines none (fresh ()) (fresh_valid ()) 97

/-! ### The screen -/

theorem canvas_cells_ok {y : Int} (len : Int) (hy : 0 ≤ y ∧ y < 128) : ∀ (n : Nat) (col : Int), 0 ≤ col → col + n ≤ 74 →
    ∃ r, canvas_cells y len n col s = .ok r s := by
  intro n
  induction n with
  | zero => exact fun col _ _ => ⟨[], rfl⟩
  | succ n ih =>
      intro col h0 hn
      obtain ⟨r, hr⟩ := ih (col + 1) (by omega) (by omega)
      unfold canvas_cells
      by_cases hcol : col < len
      · rw [if_pos hcol, bind_of_ok (getChar_ok ⟨hy, by omega, by omega⟩), bind_of_ok hr]
        exact ⟨_, rfl⟩
      · rw [if_neg hcol, bind_pure_ok, bind_of_ok hr]
        exact ⟨_, rfl⟩

theorem canvas_rows_ok (h : Valid s) : ∀ (n : Nat) (l : Int), 0 ≤ l → ∃ r, canvas_rows n l s = .ok r s := by
  have hmax := h.total.2
  unfold MAX_LINES at hmax
  intro n
  induction n with
  | zero => exact fun l _ => ⟨[], rfl⟩
  | succ n ih =>
      intro l h0
      obtain ⟨rest, hrest⟩ := ih (l + 1) (by omega)
      unfold canvas_rows
      rw [bind_gets]
      by_cases hl : l < s.total_lines
      · obtain ⟨r, hr⟩ := canvas_cells_ok (s := s) (y := l) (s.line_lens l) (by omega) 74 0 (by decide) (by decide)
        have hrow : (do
            let len ← getLen l
            canvas_cells l len 74 0 : E φ (List Byte)) s = .ok r s := by
          rw [bind_of_ok (getLen_ok (by omega))]
          exact hr
        rw [if_pos hl, bind_of_ok hrow, bind_of_ok hrest]
        exact ⟨_, rfl⟩
      · rw [if_neg hl, bind_pure_ok, bind_of_ok hrest]
        exact ⟨_, rfl⟩

/-- The cursor is on the screen. -/
def OnScreen (s : Editor φ) : Prop := s.scroll_y ≤ s.cur_y ∧ s.cur_y < s.scroll_y + VISIBLE_ROWS

/-- The screen is drawn around the cursor. -/
theorem render_ok (h : Holds s d) (h0 : 0 ≤ s.scroll_y) : ∃ t r, adjust_scroll s = .ok () t ∧
    render_editor t = .ok r t ∧ Holds t d ∧ 0 ≤ t.scroll_y ∧ OnScreen t ∧ t.files = s.files ∧
    t.written = s.written ∧ t.filename = s.filename := by
  have hy := h.valid.y
  obtain ⟨t, ht, hdoc, hscroll, hscreen, hfiles, hwritten, hname⟩ : ∃ t, adjust_scroll s = .ok () t ∧ Holds t d ∧
      0 ≤ t.scroll_y ∧ OnScreen t ∧ t.files = s.files ∧ t.written = s.written ∧ t.filename = s.filename := by
    refine ⟨_, rfl, ?_⟩
    have hmove : ∀ y, Holds { s with scroll_y := y } d := fun y =>
      ⟨h.good, h.total, h.y, h.x, fun j l hj => ⟨(h.rows j l hj).len, (h.rows j l hj).chars⟩⟩
    unfold OnScreen VISIBLE_ROWS
    by_cases hup : s.cur_y < s.scroll_y
    · simp only [if_pos hup]
      exact ⟨hmove _, by omega, by omega, trivial, trivial, trivial⟩
    by_cases hdown : s.cur_y ≥ s.scroll_y + 23
    · simp only [if_neg hup, if_pos hdown]
      exact ⟨hmove _, by omega, by omega, trivial, trivial, trivial⟩
    · simp only [if_neg hup, if_neg hdown]
      exact ⟨h, h0, by omega, trivial, trivial, trivial⟩
  obtain ⟨r, hr⟩ := canvas_rows_ok hdoc.valid VISIBLE_ROWS.toNat t.scroll_y hscroll
  refine ⟨t, r, ht, ?_, hdoc, hscroll, hscreen, hfiles, hwritten, hname⟩
  rw [render_editor, bind_gets]
  exact hr

/-! ### Sessions -/

/-- A session from a document ends with a document, and with the cursor on the screen unless the
editor was left. -/
theorem session_ok (fs : Option (FS_API φ)) : ∀ (keys : List Byte) {s : Editor φ} {d : Document}, Holds s d →
    0 ≤ s.scroll_y → ∃ b t, session fs keys s = .ok b t ∧ Valid t ∧ (b = true → OnScreen t) := by
  intro keys
  induction keys with
  | nil =>
      intro s d h h0
      obtain ⟨t, r, ht, hr, hdoc, -, hscreen, -⟩ := render_ok h h0
      refine ⟨true, t, ?_, hdoc.valid, fun _ => hscreen⟩
      rw [session, bind_of_ok ht, bind_of_ok hr]
      rfl
  | cons c keys ih =>
      intro s d h h0
      obtain ⟨t, r, ht, hr, hdoc, hscroll, -⟩ := render_ok h h0
      obtain ⟨u, hu, hdoc', hscroll'⟩ := key_leads fs hdoc c
      rw [session, bind_of_ok ht, bind_of_ok hr, bind_of_ok hu]
      by_cases hc : c = 17
      · refine ⟨false, u, ?_, hdoc'.valid, nofun⟩
        rw [decide_eq_false fun hne => hne hc]
        rfl
      · rw [decide_eq_true hc]
        exact ih hdoc' (hscroll'.symm ▸ hscroll)

/-- What the editor promises of a session: after the file is loaded and after every key the state
is valid and the cursor is on the screen that is drawn next, and no access was outside the arrays. -/
def SessionSafe (fs : Option (FS_API φ)) (path : Path) (keys : List Byte) (s : Editor φ) : Prop :=
  (∃ t, load_file fs path s = .ok () t ∧ Valid t) ∧
    ∀ pre, pre <+: keys → ∃ b t, editor_open fs path pre s = .ok b t ∧ Valid t ∧ (b = true → OnScreen t)

/-- The promise is kept exactly for files with fewer than 128 newlines. -/
theorem session_safe (fs : Option (FS_API φ)) (path : Path) (hpath : path ≠ []) (keys : List Byte)
    (s : Editor φ) : SessionSafe fs path keys s ↔ newlines (bytesRead fs s.files path) < 128 := by
  constructor
  · rintro ⟨⟨t, ht, -⟩, -⟩
    by_contra hmany
    obtain ⟨u, hu⟩ := load_file_wild fs path (Nat.le_of_not_lt hmany)
    rw [hu] at ht
    cases ht
  · intro hfew
    obtain ⟨t, ht, hdoc, hopen⟩ := load_file_ok fs path hfew
    refine ⟨⟨t, ht, hdoc.valid⟩, fun pre _ => ?_⟩
    obtain ⟨b, u, hu, hvalid, hscreen⟩ := session_ok fs pre hdoc (le_of_eq hopen.scroll_y.symm)
    refine ⟨b, u, ?_, hvalid, hscreen⟩
    rw [editor_open, if_neg hpath, bind_of_ok ht]
    exact hu

/-! ### A file system with one file -/

/-- Every name is the name of the one file. -/
def oneFile : FS_API (List Byte) where
  get_size file _ := file.length
  read_file file _ max_bytes := some ⟨file.take max_bytes, List.length_take_le ..⟩
  write_file _ _ data := (true, data)

/-- A file that fits into the buffer is read in full. -/
theorem bytesRead_oneFile (file : List Byte) (path : Path) (h : file.length ≤ 8191) :
    bytesRead (some oneFile) file path = file := by
  show (if file.length = 0 then [] else file.take (if file.length < 8191 then file.length else 8191)) = file
  by_cases hnil : file.length = 0
  · rw [if_pos hnil, List.length_eq_zero_iff.mp hnil]
  · rw [if_neg hnil, List.take_of_length_le]
    split
    · exact Nat.le_refl _
    · exact h

theorem session_safe_line : SessionSafe (some oneFile) [97] [8, 10] (fresh [98, 10]) ↔
    newlines (bytesRead (some oneFile) [98, 10] [97]) < 128 :=
  session_safe (some oneFile) [97] (by decide) [8, 10] (fresh [98, 10])

/-- A file of 128 empty lines. -/
theorem session_unsafe : ¬ ∀ (fs : Option (FS_API (List Byte))) (path : Path), path ≠ [] →
    ∀ (keys : List Byte) (s : Editor (List Byte)), SessionSafe fs path keys s := by
  intro h
  obtain ⟨⟨t, ht, -⟩, -⟩ := h (some oneFile) [97] (by decide) [] (fresh (List.replicate 128 10))
  have hread : bytesRead (some oneFile) (List.replicate 128 10) [97] = List.replicate 128 10 :=
    bytesRead_oneFile _ _ (by rw [List.length_replicate]; decide)
  obtain ⟨u, hu⟩ := load_file_wild (some oneFile) [97] (s := fresh (List.replicate 128 10)) (by
    show 128 ≤ newlines (bytesRead (some oneFile) (List.replicate 128 10) [97])
    rw [hread, newlines, List.count_replicate_self])
  rw [hu] at ht
  cases ht

end Editor

end Eke
