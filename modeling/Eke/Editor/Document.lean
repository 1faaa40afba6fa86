/-
The text an editor edits.

A document is a list of lines and a cursor, without arrays, terminators or shifting loops.  The
limits are those of the editor: 128 lines of 73 characters.
-/
import Eke.Lib.Bytes

namespace Eke

/-- Lines of characters, and the line and the column of the cursor. -/
structure Document where
  lines : List (List Byte)
  y : Nat
  x : Nat

namespace Document

/-- A line; empty if there is none. -/
def line (d : Document) (y : Nat) : List Byte := d.lines.getD y []

/-- The line of the cursor is replaced. -/
def setLine (d : Document) (l : List Byte) : Document := { d with lines := d.lines.set d.y l }

/-! ### Editing -/

/-- A character is inserted at the cursor, if the line has fewer than 73. -/
def insert (c : Byte) (d : Document) : Document :=
  let l := d.line d.y
  if l.length < 73 then { d.setLine (l.take d.x ++ c :: l.drop d.x) with x := d.x + 1 } else d

/-- Up to `n` spaces. -/
def spaces : Nat → Document → Document
  | 0, d => d
  | n + 1, d => spaces n (d.insert 32)

def tab (d : Document) : Document := d.spaces 4

/-- The character before the cursor is removed, or the line is joined to the one before it if the
two have fewer than 73 characters. -/
def backspace (d : Document) : Document :=
  let l := d.line d.y
  if 0 < d.x then { d.setLine (l.take (d.x - 1) ++ l.drop d.x) with x := d.x - 1 }
  else if 0 < d.y then
    let p := d.line (d.y - 1)
    if p.length + l.length < 73 then
      { lines := d.lines.take (d.y - 1) ++ (p ++ l) :: d.lines.drop (d.y + 1), y := d.y - 1, x := p.length }
    else d
  else d

/-- The line is split at the cursor, if there are fewer than 128. -/
def enter (d : Document) : Document :=
  let l := d.line d.y
  if d.lines.length < 128 then
    { lines := d.lines.take d.y ++ l.take d.x :: l.drop d.x :: d.lines.drop (d.y + 1), y := d.y + 1, x := 0 }
  else d

/-! ### Moving -/

/-- The cursor goes to another line, in the same column or at the end. -/
def moveTo (d : Document) (y : Nat) : Document := { d with y := y, x := min d.x (d.line y).length }

def up (d : Document) : Document := if 0 < d.y then d.moveTo (d.y - 1) else d

def down (d : Document) : Document := if d.y + 1 < d.lines.length then d.moveTo (d.y + 1) else d

def left (d : Document) : Document :=
  if 0 < d.x then { d with x := d.x - 1 }
  else if 0 < d.y then { d with y := d.y - 1, x := (d.line (d.y - 1)).length }
  else d

def right (d : Document) : Document :=
  if d.x < (d.line d.y).length then { d with x := d.x + 1 }
  else if d.y + 1 < d.lines.length then { d with y := d.y + 1, x := 0 }
  else d

/-- What a key means: the arrows move, Backspace, Enter, Tab and the printable characters edit,
and no other key touches the document. -/
def key (c : Byte) (d : Document) : Document :=
  if c = 0x80 then d.up
  else if c = 0x81 then d.down
  else if c = 0x82 then d.left
  else if c = 0x83 then d.right
  else if c = 8 then d.backspace
  else if c = 10 then d.enter
  else if c = 9 then d.tab
  else if 32 ≤ c.toNat ∧ c.toNat ≤ 126 then d.insert c
  else d

/-- What the editor can hold: at most 128 lines of at most 73 characters, and a cursor in one of
them. -/
structure Good (d : Document) : Prop where
  lines_max : d.lines.length ≤ 128
  y_lt : d.y < d.lines.length
  x_le : d.x ≤ (d.line d.y).length
  line_max : ∀ l ∈ d.lines, l.length ≤ 73

variable {d : Document} {y : Nat} {l : List Byte}

theorem line_mem (h : y < d.lines.length) : d.line y ∈ d.lines := by
  unfold line
  rw [List.getD_eq_getElem _ _ h]
  exact List.getElem_mem h

theorem Good.line_le (h : Good d) (hy : y < d.lines.length) : (d.line y).length ≤ 73 :=
  h.line_max _ (line_mem hy)

/-! ### Characters of edited lines -/

variable {α : Type} {xs ys : List α} {a z : α} {n i : Nat}

theorem getD_insert (hn : n ≤ xs.length) : (xs.take n ++ a :: xs.drop n).getD i z =
    if i < n then xs.getD i z else if i = n then a else xs.getD (i - 1) z := by
  simp only [List.getD_eq_getElem?_getD, List.getElem?_append, List.length_take, Nat.min_eq_left hn]
  by_cases hi : i < n
  · rw [if_pos hi, if_pos hi, List.getElem?_take_of_lt hi]
  rw [if_neg hi, if_neg hi, List.getElem?_cons]
  by_cases he : i = n
  · rw [if_pos (by omega), if_pos he]
    rfl
  · rw [if_neg (by omega), if_neg he, List.getElem?_drop, show n + (i - n - 1) = i - 1 by omega]

theorem getD_delete (xs : List α) (i : Nat) (z : α) (hn : n < xs.length) : (xs.take n ++ xs.drop (n + 1)).getD i z =
    if i < n then xs.getD i z else xs.getD (i + 1) z := by
  simp only [List.getD_eq_getElem?_getD, List.getElem?_append, List.length_take,
    Nat.min_eq_left (Nat.le_of_lt hn)]
  by_cases hi : i < n
  · rw [if_pos hi, if_pos hi, List.getElem?_take_of_lt hi]
  · rw [if_neg hi, if_neg hi, List.getElem?_drop, show n + 1 + (i - n) = i + 1 by omega]

theorem getD_join : (xs ++ ys).getD i z = if i < xs.length then xs.getD i z else ys.getD (i - xs.length) z := by
  simp only [List.getD_eq_getElem?_getD, List.getElem?_append]
  split
  · rfl
  · rfl

theorem getD_take : (xs.take n).getD i z = if i < n then xs.getD i z else z := by
  simp only [List.getD_eq_getElem?_getD, List.getElem?_take]
  split
  · rfl
  · rfl

theorem getD_drop : (xs.drop n).getD i z = xs.getD (n + i) z := by
  simp only [List.getD_eq_getElem?_getD, List.getElem?_drop]

/-! ### Lines of edited documents -/

theorem getElem?_joined {b : α} (hn : n < xs.length) :
    (xs.take (n - 1) ++ b :: xs.drop (n + 1))[i]? =
      if i < n - 1 then xs[i]? else if i = n - 1 then some b else xs[n + 1 + (i - (n - 1) - 1)]? := by
  simp only [List.getElem?_append, List.length_take, Nat.min_eq_left (show n - 1 ≤ xs.length by omega)]
  by_cases hi : i < n - 1
  · rw [if_pos hi, if_pos hi, List.getElem?_take_of_lt hi]
  rw [if_neg hi, if_neg hi, List.getElem?_cons]
  by_cases he : i = n - 1
  · rw [if_pos (by omega), if_pos he]
  · rw [if_neg (by omega), if_neg he, List.getElem?_drop]

theorem getElem?_split {b c : α} (hn : n < xs.length) :
    (xs.take n ++ b :: c :: xs.drop (n + 1))[i]? =
      if i < n then xs[i]? else if i = n then some b else if i = n + 1 then some c else xs[i - 1]? := by
  simp only [List.getElem?_append, List.length_take, Nat.min_eq_left (Nat.le_of_lt hn)]
  by_cases hi : i < n
  · rw [if_pos hi, if_pos hi, List.getElem?_take_of_lt hi]
  rw [if_neg hi, if_neg hi, List.getElem?_cons]
  by_cases he : i = n
  · rw [if_pos (by omega), if_pos he]
  rw [if_neg (by omega), if_neg he, List.getElem?_cons]
  by_cases he' : i = n + 1
  · rw [if_pos (by omega), if_pos he']
  · rw [if_neg (by omega), if_neg he', List.getElem?_drop, show n + 1 + (i - n - 1 - 1) = i - 1 by omega]

/-! ### What the editor can hold stays so -/

theorem line_set (h : y < d.lines.length) (l : List Byte) (j x : Nat) :
    line { lines := d.lines.set y l, y := j, x := x } y = l := by
  unfold line
  rw [List.getD_eq_getElem?_getD, List.getElem?_set, if_pos rfl, if_pos h]
  rfl

theorem line_joined (h : d.y < d.lines.length) (l : List Byte) (j x : Nat) :
    line { lines := d.lines.take (d.y - 1) ++ l :: d.lines.drop (d.y + 1), y := j, x := x } (d.y - 1) = l := by
  unfold line
  rw [List.getD_eq_getElem?_getD, getElem?_joined h, if_neg (Nat.lt_irrefl _), if_pos rfl]
  rfl

theorem Good.setLine (h : Good d) (hl : l.length ≤ 73) {x : Nat} (hx : x ≤ l.length) :
    Good { d.setLine l with x := x } := by
  refine ⟨?_, ?_, ?_, fun m hm => ?_⟩
  · exact (List.length_set ..).trans_le h.lines_max
  · exact h.y_lt.trans_eq (List.length_set ..).symm
  · show x ≤ (line { lines := d.lines.set d.y l, y := d.y, x := x } d.y).length
    rw [line_set h.y_lt]
    exact hx
  · rcases List.mem_or_eq_of_mem_set hm with hm | rfl
    · exact h.line_max m hm
    · exact hl

theorem Good.insert (h : Good d) (c : Byte) : Good (d.insert c) := by
  unfold Document.insert
  by_cases hroom : (d.line d.y).length < 73
  · have hx := h.x_le
    have hlen : ((d.line d.y).take d.x ++ c :: (d.line d.y).drop d.x).length = (d.line d.y).length + 1 := by
      rw [List.length_append, List.length_cons, List.length_take, List.length_drop]
      omega
    simp only [if_pos hroom]
    exact h.setLine (by omega) (by omega)
  · simp only [if_neg hroom]
    exact h

/-- A line without room stays as it is. -/
theorem spaces_full (hfull : ¬ (d.line d.y).length < 73) (n : Nat) : d.spaces n = d := by
  induction n with
  | zero => rfl
  | succ n ih =>
      have hins : d.insert 32 = d := by
        unfold Document.insert
        simp only [if_neg hfull]
      unfold spaces
      rw [hins]
      exact ih

theorem Good.backspace (h : Good d) : Good d.backspace := by
  unfold Document.backspace
  have hx := h.x_le
  have hl := h.line_le h.y_lt
  by_cases hpos : 0 < d.x
  · have hlen : ((d.line d.y).take (d.x - 1) ++ (d.line d.y).drop d.x).length = (d.line d.y).length - 1 := by
      rw [List.length_append, List.length_take, List.length_drop]
      omega
    simp only [if_pos hpos]
    exact h.setLine (by omega) (by omega)
  simp only [if_neg hpos]
  by_cases hy : 0 < d.y
  · simp only [if_pos hy]
    by_cases hroom : (d.line (d.y - 1)).length + (d.line d.y).length < 73
    · simp only [if_pos hroom]
      have hy' := h.y_lt
      have hmax := h.lines_max
      have hlen : (d.lines.take (d.y - 1) ++ (d.line (d.y - 1) ++ d.line d.y) :: d.lines.drop (d.y + 1)).length =
          d.lines.length - 1 := by
        rw [List.length_append, List.length_cons, List.length_take, List.length_drop]
        omega
      refine ⟨?_, ?_, ?_, fun m hm => ?_⟩
      · exact hlen.trans_le (by omega)
      · exact (show d.y - 1 < d.lines.length - 1 by omega).trans_eq hlen.symm
      · show _ ≤ (line { lines := _, y := d.y - 1, x := _ } (d.y - 1)).length
        rw [line_joined hy', List.length_append]
        exact Nat.le_add_right ..
      · rcases List.mem_append.mp hm with hm | hm
        · exact h.line_max m (List.mem_of_mem_take hm)
        rcases List.mem_cons.mp hm with rfl | hm
        · rw [List.length_append]
          omega
        · exact h.line_max m (List.mem_of_mem_drop hm)
    · simp only [if_neg hroom]
      exact h
  · simp only [if_neg hy]
    exact h

theorem Good.enter (h : Good d) : Good d.enter := by
  unfold Document.enter
  by_cases hroom : d.lines.length < 128
  · simp only [if_pos hroom]
    have hy := h.y_lt
    have hl := h.line_le h.y_lt
    have hlen : (d.lines.take d.y ++ (d.line d.y).take d.x :: (d.line d.y).drop d.x ::
        d.lines.drop (d.y + 1)).length = d.lines.length + 1 := by
      rw [List.length_append, List.length_cons, List.length_cons, List.length_take, List.length_drop]
      omega
    refine ⟨?_, ?_, Nat.zero_le _, fun m hm => ?_⟩
    · exact hlen.trans_le (by omega)
    · exact (show d.y + 1 < d.lines.length + 1 by omega).trans_eq hlen.symm
    · rcases List.mem_append.mp hm with hm | hm
      · exact h.line_max m (List.mem_of_mem_take hm)
      rcases List.mem_cons.mp hm with rfl | hm
      · rw [List.length_take]
        omega
      rcases List.mem_cons.mp hm with rfl | hm
      · rw [List.length_drop]
        omega
      · exact h.line_max m (List.mem_of_mem_drop hm)
  · simp only [if_neg hroom]
    exact h

theorem Good.cursor (h : Good d) {y x : Nat} (hy : y < d.lines.length) (hx : x ≤ (d.line y).length) :
    Good { d with y := y, x := x } := ⟨h.lines_max, hy, hx, h.line_max⟩

theorem Good.moveTo (h : Good d) (hy : y < d.lines.length) : Good (d.moveTo y) :=
  h.cursor hy (Nat.min_le_right ..)

theorem Good.up (h : Good d) : Good d.up := by
  have hy := h.y_lt
  unfold Document.up
  split
  · exact h.moveTo (by omega)
  · exact h

theorem Good.down (h : Good d) : Good d.down := by
  unfold Document.down
  split
  · next hc => exact h.moveTo hc
  · exact h

theorem Good.left (h : Good d) : Good d.left := by
  have hy := h.y_lt
  have hx := h.x_le
  unfold Document.left
  split
  · exact h.cursor hy (by omega)
  split
  · exact h.cursor (by omega) (Nat.le_refl _)
  · exact h

theorem Good.right (h : Good d) : Good d.right := by
  unfold Document.right
  split
  · next hc => exact h.cursor h.y_lt hc
  split
  · next hc => exact h.cursor hc (Nat.zero_le _)
  · exact h

end Document

end Eke
