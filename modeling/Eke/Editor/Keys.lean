/-
What the keys do to the document.

`Holds` says that the arrays hold a document: each line with its length and its terminator, and
the cursor where the document has it.  Every handler that starts with a document ends with the
document the key means, without an access outside the arrays.
-/
import Eke.Editor.Cells
import Eke.Editor.Document

namespace Eke

namespace Editor

open Prog

variable {φ : Type} {s t u : Editor φ} {d : Document} {c : Byte} {l : List Byte}

/-- The row `y` of the array holds a line and its terminator. -/
structure Row (s : Editor φ) (y : Int) (l : List Byte) : Prop where
  len : s.line_lens y = l.length
  chars : ∀ i : Nat, i ≤ l.length → s.lines y i = l.getD i 0

/-- The arrays and the cursor hold a document. -/
structure Holds (s : Editor φ) (d : Document) : Prop where
  good : d.Good
  total : s.total_lines = d.lines.length
  y : s.cur_y = d.y
  x : s.cur_x = d.x
  rows : ∀ (j : Nat) (l : List Byte), d.lines[j]? = some l → Row s j l

/-- What the keys that edit and move leave alone. -/
structure Frame (s t : Editor φ) : Prop where
  files : t.files = s.files
  written : t.written = s.written
  filename : t.filename = s.filename
  scroll_y : t.scroll_y = s.scroll_y
  status_msg : t.status_msg = s.status_msg

theorem Frame.refl (s : Editor φ) : Frame s s := ⟨rfl, rfl, rfl, rfl, rfl⟩

theorem Frame.trans (h : Frame s t) (h' : Frame t u) : Frame s u :=
  ⟨h'.files.trans h.files, h'.written.trans h.written, h'.filename.trans h.filename,
    h'.scroll_y.trans h.scroll_y, h'.status_msg.trans h.status_msg⟩

/-- The program ends with the document `d`. -/
def Leads {α : Type} (x : E φ α) (s : Editor φ) (a : α) (d : Document) : Prop :=
  ∃ t, x s = .ok a t ∧ Holds t d ∧ Frame s t

/-! ### Rows -/

theorem Row.char (h : Row s y l) {i : Int} (h0 : 0 ≤ i) (hi : i ≤ l.length) :
    s.lines y i = l.getD i.toNat 0 := by
  have hc := h.chars i.toNat (by omega)
  rwa [Int.toNat_of_nonneg h0] at hc

/-- A row is made of its cells. -/
theorem Row.of_cells {y : Int} (hlen : s.line_lens y = l.length)
    (h : ∀ i : Int, 0 ≤ i → i ≤ l.length → s.lines y i = l.getD i.toNat 0) : Row s y l :=
  ⟨hlen, fun i hi => by
    have hc := h i (by omega) (by omega)
    rwa [Int.toNat_natCast] at hc⟩

namespace Holds

variable (h : Holds s d)
include h

theorem row : Row s d.y (d.line d.y) := by
  refine h.rows d.y _ ?_
  unfold Document.line
  rw [List.getD_eq_getElem _ _ h.good.y_lt, List.getElem?_eq_getElem h.good.y_lt]

theorem row_at {j : Nat} (hj : j < d.lines.length) : Row s j (d.line j) := by
  refine h.rows j _ ?_
  unfold Document.line
  rw [List.getD_eq_getElem _ _ hj, List.getElem?_eq_getElem hj]

theorem y_range : 0 ≤ (d.y : Int) ∧ (d.y : Int) < 128 := by
  have := h.good.y_lt
  have := h.good.lines_max
  omega

theorem fits {j : Int} (h0 : 0 ≤ j) (hj : j < d.lines.length) : Fits s j := by
  have hrow := h.row_at (j := j.toNat) (by omega)
  have hle := h.good.line_le (y := j.toNat) (by omega)
  rw [Int.toNat_of_nonneg h0] at hrow
  have hlen := hrow.len
  exact ⟨by omega, by omega⟩

end Holds

theorem Holds.row_of (h : Holds s d) {j : Nat} {m : List Byte} (hm : d.lines[j]? = some m) :
    j < d.lines.length ∧ m.length ≤ 73 ∧ Row s j m :=
  ⟨(List.getElem?_eq_some_iff.mp hm).1, h.good.line_max m (List.mem_of_getElem? hm), h.rows j m hm⟩

/-- A row that has been copied from another. -/
theorem Row.copied {y z : Int} (h : Row s z l) (hlen : t.line_lens y = s.line_lens z)
    (hchars : ∀ i, 0 ≤ i → i ≤ l.length → t.lines y i = s.lines z i) : Row t y l :=
  ⟨hlen.trans h.len, fun i hi => (hchars i (by omega) (by omega)).trans (h.chars i hi)⟩

/-- A row that another row's changes leave alone. -/
theorem Row.congr {y : Int} (h : Row s y l) (hlen : t.line_lens y = s.line_lens y)
    (hchars : ∀ i, t.lines y i = s.lines y i) : Row t y l :=
  ⟨hlen.trans h.len, fun i hi => (hchars i).trans (h.chars i hi)⟩

/-- The line of the cursor is replaced. -/
theorem Holds.setLine (h : Holds s d) {x : Nat} (hgood : Document.Good { d.setLine l with x := x })
    (htotal : t.total_lines = s.total_lines) (hy : t.cur_y = s.cur_y) (hx : t.cur_x = x)
    (hrow : Row t d.y l) (hlens : ∀ j, j ≠ (d.y : Int) → t.line_lens j = s.line_lens j)
    (hlines : ∀ j i, j ≠ (d.y : Int) → t.lines j i = s.lines j i) :
    Holds t { d.setLine l with x := x } := by
  refine ⟨hgood, ?_, hy.trans h.y, hx, fun j m hm => ?_⟩
  · rw [htotal, h.total]
    exact congrArg Nat.cast (List.length_set ..).symm
  · change (d.lines.set d.y l)[j]? = some m at hm
    rw [List.getElem?_set] at hm
    by_cases hj : d.y = j
    · rw [if_pos hj, if_pos h.good.y_lt] at hm
      obtain rfl := Option.some.inj hm
      rw [← hj]
      exact hrow
    · rw [if_neg hj] at hm
      exact (h.rows j m hm).congr (hlens j (by omega)) fun i => hlines j i (by omega)

/-! ### Inserting -/

theorem insert_char_leads (h : Holds s d) (hroom : (d.line d.y).length < 73) :
    Leads (insert_char c) s () (d.insert c) := by
  have hrow := h.row
  have hx := h.good.x_le
  have hy := h.y_range
  have hlen := hrow.len
  unfold Leads insert_char
  simp only [bind_gets, h.x, h.y]
  rw [bind_of_ok (getLen_ok hy), hlen,
    bind_of_ok (shift_right (by omega) hy (by omega) (by omega)),
    bind_of_ok (setChar_ok ⟨hy, by omega, by omega⟩), bind_of_ok (setLen_ok hy)]
  refine ⟨_, rfl, ?_, ⟨rfl, rfl, rfl, rfl, rfl⟩⟩
  have hdoc : d.insert c =
      { d.setLine ((d.line d.y).take d.x ++ c :: (d.line d.y).drop d.x) with x := d.x + 1 } := by
    unfold Document.insert
    simp only [if_pos hroom]
  have hgood := h.good.insert c
  rw [hdoc] at hgood ⊢
  refine h.setLine hgood rfl rfl rfl (Row.of_cells ?_ fun i h0 hi => ?_)
    (fun j hj => if_neg hj) fun j i hj => ?_
  · simp only [arrays, if_true, List.length_append, List.length_cons, List.length_take, List.length_drop]
    omega
  · have hi' : i ≤ (d.line d.y).length + 1 := by
      simp only [List.length_append, List.length_cons, List.length_take, List.length_drop] at hi
      omega
    rw [Document.getD_insert hx]
    simp only [arrays, true_and]
    by_cases hlt : i < d.x
    · rw [if_neg (by omega), if_neg (by omega), if_pos (by omega)]
      exact hrow.char h0 (by omega)
    rw [if_neg (show ¬ i.toNat < d.x by omega)]
    by_cases heq : i = d.x
    · rw [if_pos heq, if_pos (by omega)]
    · rw [if_neg heq, if_pos (by omega), if_neg (by omega), hrow.char (by omega) (by omega),
        show (i - 1).toNat = i.toNat - 1 by omega]
  · simp only [arrays]
    rw [if_neg fun hc => hj hc.1, if_neg fun hc => hj hc.1]

/-- A character is inserted if the line has room for it. -/
theorem insert_if_room_leads (h : Holds s d) (c : Byte) :
    Leads (insert_if_room c) s (decide ((d.line d.y).length < 73)) (d.insert c) := by
  have hlen := h.row.len
  unfold Leads insert_if_room
  simp only [bind_gets, h.y]
  rw [bind_of_ok (getLen_ok h.y_range), hlen]
  by_cases hroom : (d.line d.y).length < 73
  · obtain ⟨t, ht, hdoc, hframe⟩ := insert_char_leads (c := c) h hroom
    rw [if_pos (show ((d.line d.y).length : Int) < MAX_COLS - 1 by unfold MAX_COLS; omega), bind_of_ok ht,
      decide_eq_true hroom]
    exact ⟨t, rfl, hdoc, hframe⟩
  · rw [if_neg (show ¬ ((d.line d.y).length : Int) < MAX_COLS - 1 by unfold MAX_COLS; omega),
      decide_eq_false hroom]
    refine ⟨s, rfl, ?_, .refl s⟩
    unfold Document.insert
    simp only [if_neg hroom]
    exact h

theorem key_tab_leads : ∀ (n : Nat) {s : Editor φ} {d : Document}, Holds s d →
    Leads (key_tab n) s () (d.spaces n) := by
  intro n
  induction n with
  | zero => exact fun h => ⟨_, rfl, h, .refl _⟩
  | succ n ih =>
      intro s d h
      obtain ⟨t, ht, hdoc, hframe⟩ := insert_if_room_leads h 32
      unfold Leads key_tab
      rw [bind_of_ok ht]
      by_cases hroom : (d.line d.y).length < 73
      · obtain ⟨u, hu, hdoc', hframe'⟩ := ih hdoc
        rw [decide_eq_true hroom]
        exact ⟨u, hu, hdoc', hframe.trans hframe'⟩
      · rw [decide_eq_false hroom]
        refine ⟨t, rfl, ?_, hframe⟩
        have hfull : d.insert 32 = d := by
          unfold Document.insert
          simp only [if_neg hroom]
        rw [hfull] at hdoc
        rw [Document.spaces_full hroom]
        exact hdoc

/-! ### Backspace -/

theorem delete_char_leads (h : Holds s d) (hpos : 0 < d.x) : Leads delete_char s () d.backspace := by
  have hrow := h.row
  have hx := h.good.x_le
  have hy := h.y_range
  have hlen := hrow.len
  have hmax := h.good.line_le h.good.y_lt
  unfold Leads delete_char
  simp only [bind_gets, h.x, h.y]
  have hloop := copy_up (s := s) d.y d.y (fun i => i + 1) (fun i => i) (a := (d.x : Int) - 1)
    (b := (d.line d.y).length) (q := 0) (by omega)
    (fun i => (Int.add_zero i).symm) (fun i _ _ => ⟨hy, by omega, by omega⟩)
    (fun i _ _ => ⟨hy, by omega, by omega⟩) (fun _ i k _ _ _ => by omega)
  simp only [Int.add_zero, Int.sub_zero] at hloop
  rw [bind_of_ok (getLen_ok hy), hlen, bind_of_ok hloop, bind_of_ok (setLen_ok hy)]
  refine ⟨_, rfl, ?_, ⟨rfl, rfl, rfl, rfl, rfl⟩⟩
  have hdoc : d.backspace =
      { d.setLine ((d.line d.y).take (d.x - 1) ++ (d.line d.y).drop d.x) with x := d.x - 1 } := by
    unfold Document.backspace
    simp only [if_pos hpos]
  have hgood := h.good.backspace
  rw [hdoc] at hgood ⊢
  have hcut : ((d.line d.y).take (d.x - 1) ++ (d.line d.y).drop d.x).length = (d.line d.y).length - 1 := by
    rw [List.length_append, List.length_take, List.length_drop]
    omega
  have hget : ∀ i, ((d.line d.y).take (d.x - 1) ++ (d.line d.y).drop d.x).getD i 0 =
      if i < d.x - 1 then (d.line d.y).getD i 0 else (d.line d.y).getD (i + 1) 0 := by
    intro i
    have hn : d.x - 1 + 1 = d.x := by omega
    have hg := Document.getD_delete (d.line d.y) i 0 (n := d.x - 1) (by omega)
    rwa [hn] at hg
  refine h.setLine hgood rfl rfl (show (d.x : Int) - 1 = (d.x - 1 : Nat) by omega) (Row.of_cells ?_ fun i h0 hi => ?_)
    (fun j hj => if_neg hj) fun j i hj => ?_
  · simp only [arrays, if_true, hcut]
    omega
  · rw [hcut] at hi
    rw [hget]
    simp only [arrays, true_and]
    by_cases hlt : i < d.x - 1
    · rw [if_neg (by omega), if_pos (by omega)]
      exact hrow.char h0 (by omega)
    · rw [if_pos (by omega), if_neg (by omega), hrow.char (by omega) (by omega),
        show (i + 1).toNat = i.toNat + 1 by omega]
  · simp only [arrays]
    exact if_neg fun hc => hj hc.1

/-- The line of the cursor goes behind the one before it. -/
theorem merge_lines_leads (h : Holds s d) (hx : d.x = 0) (hpos : 0 < d.y) :
    Leads merge_lines s () d.backspace := by
  have hy := h.y_range
  have hylt := h.good.y_lt
  have hmax := h.good.lines_max
  have hrow := h.row
  have hprev := h.row_at (j := d.y - 1) (by omega)
  rw [show ((d.y - 1 : Nat) : Int) = d.y - 1 by omega] at hprev
  have hlen := hrow.len
  have hplen := hprev.len
  unfold Leads merge_lines
  simp only [bind_gets, h.y]
  rw [bind_of_ok (getLen_ok (by omega)), hplen, bind_of_ok (getLen_ok hy), hlen]
  have hdoc : d.backspace = if (d.line (d.y - 1)).length + (d.line d.y).length < 73 then
      { lines := d.lines.take (d.y - 1) ++ (d.line (d.y - 1) ++ d.line d.y) :: d.lines.drop (d.y + 1)
        y := d.y - 1, x := (d.line (d.y - 1)).length }
      else d := by
    unfold Document.backspace
    simp only [if_neg (show ¬ 0 < d.x by omega), if_pos hpos]
  have hgood := h.good.backspace
  rw [hdoc] at hgood ⊢
  by_cases hroom : (d.line (d.y - 1)).length + (d.line d.y).length < 73
  · rw [if_pos (show ((d.line (d.y - 1)).length : Int) + (d.line d.y).length < MAX_COLS - 1 by
      unfold MAX_COLS; omega)]
    rw [if_pos hroom] at hgood ⊢
    have hloop := copy_up (s := s) d.y (d.y - 1) (fun i => i) (fun i => (d.line (d.y - 1)).length + i)
      (a := 0) (b := (d.line d.y).length) (q := (d.line (d.y - 1)).length) (by omega) (fun i => Int.add_comm ..)
      (fun i _ _ => ⟨hy, by omega, by omega⟩) (fun i _ _ => ⟨by omega, by omega, by omega⟩)
      (fun hc => absurd hc (by omega))
    rw [bind_of_ok hloop, bind_of_ok (setChar_ok ⟨by omega, by omega, by omega⟩),
      bind_of_ok (setLen_ok (by omega))]
    simp only [bind_gets, arrays, h.total]
    rw [bind_of_ok (lines_up (by omega) (by omega) (by omega) fun l h0 hl => ?fits)]
    case fits =>
      have hf := h.fits (j := l) (by omega) (by omega)
      unfold Fits at hf ⊢
      simp only [if_neg (show ¬ l = (d.y : Int) - 1 by omega)]
      exact hf
    refine ⟨_, rfl, ⟨hgood, ?_, ?_, rfl, fun j m hm => ?_⟩, ⟨rfl, rfl, rfl, rfl, rfl⟩⟩
    · show (d.lines.length : Int) - 1 = _
      rw [List.length_append, List.length_cons, List.length_take, List.length_drop]
      omega
    · show (d.y : Int) - 1 = (d.y - 1 : Nat)
      omega
    · change (d.lines.take (d.y - 1) ++ (d.line (d.y - 1) ++ d.line d.y) :: d.lines.drop (d.y + 1))[j]? =
        some m at hm
      rw [Document.getElem?_joined hylt] at hm
      by_cases hj : j < d.y - 1
      · rw [if_pos hj] at hm
        refine (h.rows j m hm).congr ?_ fun i => ?_
        · simp only [arrays]
          rw [if_neg (by omega), if_neg (by omega)]
        · simp only [arrays]
          rw [if_neg (by omega), if_neg (by omega), if_neg (by omega)]
      rw [if_neg hj] at hm
      by_cases hj' : j = d.y - 1
      · rw [if_pos hj'] at hm
        obtain rfl := Option.some.inj hm
        have hjy : (j : Int) = d.y - 1 := by omega
        refine Row.of_cells ?_ fun i h0 hi => ?_
        · simp only [arrays]
          rw [if_neg (by omega), if_pos hjy, List.length_append]
          omega
        · rw [List.length_append] at hi
          simp only [arrays]
          rw [if_neg (by omega), Document.getD_join]
          by_cases hend : i = (d.line (d.y - 1)).length + (d.line d.y).length
          · rw [if_pos ⟨hjy, hend⟩, if_neg (by omega), List.getD_eq_default _ _ (by omega)]
          rw [if_neg fun hc => hend hc.2]
          by_cases hl : i.toNat < (d.line (d.y - 1)).length
          · rw [if_neg (by omega), if_pos hl, hjy]
            exact hprev.char h0 (by omega)
          · rw [if_pos (by omega), if_neg hl, hrow.char (by omega) (by omega),
              show (i - ((d.line (d.y - 1)).length : Int)).toNat = i.toNat - (d.line (d.y - 1)).length by omega]
      · rw [if_neg hj', show d.y + 1 + (j - (d.y - 1) - 1) = j + 1 by omega] at hm
        obtain ⟨hlt, hm73, hrow'⟩ := h.row_of hm
        rw [Int.natCast_add, Int.natCast_one] at hrow'
        refine hrow'.copied ?_ fun i h0 hi => ?_
        · simp only [arrays]
          rw [if_pos (by omega), if_neg (by omega)]
        · have hl := hrow'.len
          simp only [arrays]
          rw [if_neg (show ¬ (j : Int) + 1 = d.y - 1 by omega), if_pos (by omega), if_neg (by omega),
            if_neg (by omega)]
  · rw [if_neg (show ¬ ((d.line (d.y - 1)).length : Int) + (d.line d.y).length < MAX_COLS - 1 by
      unfold MAX_COLS; omega), if_neg hroom]
    exact ⟨s, rfl, h, .refl s⟩

theorem key_backspace_leads (h : Holds s d) : Leads key_backspace s () d.backspace := by
  unfold Leads key_backspace
  simp only [bind_gets, h.x, h.y]
  by_cases hpos : 0 < d.x
  · rw [if_pos (by omega)]
    exact delete_char_leads h hpos
  rw [if_neg (by omega)]
  by_cases hy : 0 < d.y
  · rw [if_pos (by omega)]
    exact merge_lines_leads h (by omega) hy
  · rw [if_neg (by omega)]
    refine ⟨s, rfl, ?_, .refl s⟩
    unfold Document.backspace
    simp only [if_neg hpos, if_neg hy]
    exact h

/-! ### Enter -/

theorem key_enter_leads (h : Holds s d) : Leads key_enter s () d.enter := by
  have hy := h.y_range
  have hylt := h.good.y_lt
  have hrow := h.row
  have hlen := hrow.len
  have hx := h.good.x_le
  have hl73 := h.good.line_le hylt
  unfold Leads key_enter
  simp only [bind_gets, h.x, h.y, h.total]
  have hgood := h.good.enter
  unfold Document.enter at hgood ⊢
  by_cases hroom : d.lines.length < 128
  · rw [if_pos (show (d.lines.length : Int) < MAX_LINES by unfold MAX_LINES; omega)]
    simp only [if_pos hroom] at hgood ⊢
    rw [bind_of_ok (lines_down (by omega) (by omega) (by omega) fun l h0 hl =>
      h.fits (by omega) (by omega)), bind_of_ok (getLen_ok hy)]
    simp only [arrays]
    rw [if_neg (by omega), hlen]
    have hloop : ∀ s' : Editor φ, forUp 0 ((d.line d.y).length - (d.x : Int)) (fun i => do
          let ch ← getChar d.y (d.x + i)
          setChar (d.y + 1) i ch) s' =
        .ok () (s'.arrays (fun j i => if j = (d.y : Int) + 1 ∧ 0 ≤ i ∧ i < (d.line d.y).length - (d.x : Int) then
          s'.lines d.y (d.x + i) else s'.lines j i) s'.line_lens) := by
      intro s'
      have hcopy := copy_up (s := s') d.y (d.y + 1) (fun i => d.x + i) (fun i => i) (a := 0)
        (b := (d.line d.y).length - (d.x : Int)) (q := 0) (by omega) (fun i => (Int.add_zero i).symm) (fun i _ _ => ⟨hy, by omega, by omega⟩)
        (fun i _ _ => ⟨by omega, by omega, by omega⟩) (fun hc => absurd hc (by omega))
      simpa only [Int.add_zero, Int.sub_zero] using hcopy
    rw [bind_of_ok (hloop _), bind_of_ok (setChar_ok ⟨by omega, by omega, by omega⟩),
      bind_of_ok (setLen_ok (by omega)), bind_of_ok (setChar_ok ⟨hy, by omega, by omega⟩),
      bind_of_ok (setLen_ok hy)]
    refine ⟨_, rfl, ⟨hgood, ?_, rfl, rfl, fun j m hm => ?_⟩, ⟨rfl, rfl, rfl, rfl, rfl⟩⟩
    · show (d.lines.length : Int) + 1 = _
      rw [List.length_append, List.length_cons, List.length_cons, List.length_take, List.length_drop]
      omega
    · change (d.lines.take d.y ++ (d.line d.y).take d.x :: (d.line d.y).drop d.x ::
        d.lines.drop (d.y + 1))[j]? = some m at hm
      rw [Document.getElem?_split hylt] at hm
      by_cases hj : j < d.y
      · rw [if_pos hj] at hm
        refine (h.rows j m hm).congr ?_ fun i => ?_
        · simp only [arrays]
          rw [if_neg (by omega), if_neg (by omega), if_neg (by omega)]
        · simp only [arrays]
          rw [if_neg (by omega), if_neg (by omega), if_neg (by omega), if_neg (by omega)]
      rw [if_neg hj] at hm
      by_cases hj' : j = d.y
      · rw [if_pos hj'] at hm
        obtain rfl := Option.some.inj hm
        subst hj'
        refine Row.of_cells ?_ fun i h0 hi => ?_
        · simp only [arrays, if_true, List.length_take]
          omega
        · rw [List.length_take] at hi
          simp only [arrays, true_and]
          rw [Document.getD_take]
          by_cases hend : i = d.x
          · rw [if_pos hend, if_neg (by omega)]
          · rw [if_neg hend, if_neg (by omega), if_neg (by omega), if_neg (by omega), if_pos (by omega)]
            exact hrow.char h0 (by omega)
      rw [if_neg hj'] at hm
      by_cases hj'' : j = d.y + 1
      · rw [if_pos hj''] at hm
        obtain rfl := Option.some.inj hm
        have hjy : (j : Int) = d.y + 1 := by omega
        refine Row.of_cells ?_ fun i h0 hi => ?_
        · simp only [arrays]
          rw [if_neg (by omega), if_pos hjy, List.length_drop]
          omega
        · rw [List.length_drop] at hi
          simp only [arrays]
          rw [if_neg (by omega), Document.getD_drop]
          by_cases hend : i = (d.line d.y).length - (d.x : Int)
          · rw [if_pos ⟨hjy, hend⟩, List.getD_eq_default _ _ (by omega)]
          · rw [if_neg fun hc => hend hc.2, if_pos (by omega), if_neg (by omega),
              hrow.char (by omega) (by omega), show ((d.x : Int) + i).toNat = d.x + i.toNat by omega]
      · rw [if_neg hj''] at hm
        obtain ⟨hlt, hm73, hrow'⟩ := h.row_of hm
        rw [show ((j - 1 : Nat) : Int) = j - 1 by omega] at hrow'
        refine hrow'.copied ?_ fun i h0 hi => ?_
        · simp only [arrays]
          rw [if_neg (by omega), if_neg (by omega), if_pos (by omega)]
        · have hl := hrow'.len
          simp only [arrays]
          rw [if_neg (by omega), if_neg (by omega), if_neg (by omega), if_pos (by omega)]
  · rw [if_neg (show ¬ (d.lines.length : Int) < MAX_LINES by unfold MAX_LINES; omega)]
    simp only [if_neg hroom]
    exact ⟨s, rfl, h, .refl s⟩

/-! ### Moving -/

/-- The cursor is somewhere else. -/
theorem Holds.cursor (h : Holds s d) {y x : Nat} (hgood : Document.Good { d with y := y, x := x }) :
    Holds { s with cur_y := y, cur_x := x } { d with y := y, x := x } :=
  ⟨hgood, h.total, rfl, rfl, fun j m hm => ⟨(h.rows j m hm).len, (h.rows j m hm).chars⟩⟩

theorem to_line_leads (h : Holds s d) {y : Nat} {y' : Int} (hy' : y' = y) (hy : y < d.lines.length) :
    Leads (to_line y') s () (d.moveTo y) := by
  subst hy'
  have hmax := h.good.lines_max
  have hlen := (h.row_at hy).len
  unfold Leads to_line
  simp only [bind_update]
  rw [bind_of_ok (getLen_ok (by omega))]
  refine ⟨_, rfl, ?_, ?_⟩
  · have hc := h.cursor (h.good.moveTo hy)
    unfold Document.moveTo
    simp only [hlen, h.x]
    by_cases hgt : (d.x : Int) > (d.line y).length
    · rw [if_pos hgt, Nat.min_eq_right (by omega)]
      rwa [Nat.min_eq_right (by omega)] at hc
    · rw [if_neg hgt, Nat.min_eq_left (by omega)]
      rwa [Nat.min_eq_left (by omega)] at hc
  · simp only []
    split
    · exact ⟨rfl, rfl, rfl, rfl, rfl⟩
    · exact ⟨rfl, rfl, rfl, rfl, rfl⟩

theorem key_up_leads (h : Holds s d) : Leads key_up s () d.up := by
  have hylt := h.good.y_lt
  unfold Leads key_up Document.up
  simp only [bind_gets, h.y]
  by_cases hpos : 0 < d.y
  · rw [if_pos (by omega), if_pos hpos]
    exact to_line_leads h (by omega) (by omega)
  · rw [if_neg (by omega), if_neg hpos]
    exact ⟨s, rfl, h, .refl s⟩

theorem key_down_leads (h : Holds s d) : Leads key_down s () d.down := by
  unfold Leads key_down Document.down
  simp only [bind_gets, h.y, h.total]
  by_cases hlt : d.y + 1 < d.lines.length
  · rw [if_pos (by omega), if_pos hlt]
    exact to_line_leads h (by omega) (by omega)
  · rw [if_neg (by omega), if_neg hlt]
    exact ⟨s, rfl, h, .refl s⟩

theorem key_left_leads (h : Holds s d) : Leads key_left s () d.left := by
  have hylt := h.good.y_lt
  have hmax := h.good.lines_max
  have hgood := h.good.left
  unfold Leads key_left
  unfold Document.left at hgood ⊢
  simp only [bind_gets, h.x, h.y]
  by_cases hpos : 0 < d.x
  · rw [if_pos (by omega)]
    rw [if_pos hpos] at hgood ⊢
    have hc := h.cursor hgood
    rw [show ((d.x - 1 : Nat) : Int) = d.x - 1 by omega, ← h.y] at hc
    exact ⟨_, rfl, hc, ⟨rfl, rfl, rfl, rfl, rfl⟩⟩
  rw [if_neg (by omega)]
  rw [if_neg hpos] at hgood ⊢
  by_cases hy : 0 < d.y
  · rw [if_pos (by omega)]
    rw [if_pos hy] at hgood ⊢
    have hlen := (h.row_at (j := d.y - 1) (by omega)).len
    have hc := h.cursor hgood
    rw [show ((d.y - 1 : Nat) : Int) = d.y - 1 by omega] at hlen hc
    rw [bind_of_ok (getLen_ok (by omega)), hlen]
    exact ⟨_, rfl, hc, ⟨rfl, rfl, rfl, rfl, rfl⟩⟩
  · rw [if_neg (by omega), if_neg hy]
    exact ⟨s, rfl, h, .refl s⟩

theorem key_right_leads (h : Holds s d) : Leads key_right s () d.right := by
  have hlen := h.row.len
  have hgood := h.good.right
  unfold Leads key_right
  unfold Document.right at hgood ⊢
  simp only [bind_gets, h.x, h.y, h.total]
  rw [bind_of_ok (getLen_ok h.y_range), hlen]
  by_cases hlt : d.x < (d.line d.y).length
  · rw [if_pos (by omega)]
    rw [if_pos hlt] at hgood ⊢
    have hc := h.cursor hgood
    rw [← h.y] at hc
    exact ⟨_, rfl, hc, ⟨rfl, rfl, rfl, rfl, rfl⟩⟩
  rw [if_neg (by omega)]
  rw [if_neg hlt] at hgood ⊢
  by_cases hy : d.y + 1 < d.lines.length
  · rw [if_pos (by omega)]
    rw [if_pos hy] at hgood ⊢
    exact ⟨_, rfl, h.cursor hgood, ⟨rfl, rfl, rfl, rfl, rfl⟩⟩
  · rw [if_neg (by omega), if_neg hy]
    exact ⟨s, rfl, h, .refl s⟩

end Editor

end Eke
