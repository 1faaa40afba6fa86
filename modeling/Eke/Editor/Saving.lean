/-
What `save_file` writes.

The lines are put behind one another with newlines between them.  The characters stop at 8100
bytes, the newlines do not, and no line is begun from there on.
-/
import Eke.Editor.Keys
import Mathlib.Data.List.Basic

namespace Eke

/-- The lines as one text. -/
def text (ls : List (List Byte)) : List Byte := List.intercalate [10] ls

theorem text_single (m : List Byte) : text [m] = m := List.intercalate_singleton

theorem text_cons (m l : List Byte) (ls : List (List Byte)) :
    text (m :: l :: ls) = m ++ 10 :: text (l :: ls) := by
  unfold text
  rw [List.intercalate_cons_cons, List.append_assoc]
  rfl

/-- What of the lines reaches a buffer that holds `out`. -/
def joined : List (List Byte) → List Byte → List Byte
  | [], out => out
  | m :: ls, out =>
      if out.length < 8100 then
        joined ls (out ++ m.take (8100 - out.length) ++ if ls = [] then [] else [10])
      else out

/-- Nothing of the lines is lost: they fit into 8100 bytes, or the one byte more is the newline in
front of an empty last line and behind a line that is not. -/
def FullText (n : Nat) (ls : List (List Byte)) : Prop :=
  n + (text ls).length ≤ 8100 ∨ text ls = [] ∨
    n + (text ls).length = 8101 ∧ ∃ before m, ls = before ++ [m, []] ∧ m ≠ []

variable {m : List Byte} {ls : List (List Byte)} {out : List Byte}

/-- A full buffer takes no line. -/
theorem joined_full (h : ¬ out.length < 8100) (ls : List (List Byte)) : joined ls out = out := by
  cases ls with
  | nil => rfl
  | cons m ls =>
      unfold joined
      rw [if_neg h]

theorem joined_cons (h : out.length < 8100) (m l : List Byte) (ls : List (List Byte)) :
    joined (m :: l :: ls) out = joined (l :: ls) (out ++ m.take (8100 - out.length) ++ [10]) := by
  rw [joined, if_pos h, if_neg (List.cons_ne_nil l ls)]

theorem text_cons_length (m l : List Byte) (ls : List (List Byte)) :
    (text (m :: l :: ls)).length = m.length + 1 + (text (l :: ls)).length := by
  rw [text_cons, List.length_append, List.length_cons]
  omega

/-- Two lines at least have a newline between them. -/
theorem text_ne_nil (h : 1 < ls.length) : text ls ≠ [] := by
  intro hnil
  match ls, h with
  | m :: l :: rest, _ =>
      have hlen := text_cons_length m l rest
      rw [hnil, List.length_nil] at hlen
      omega

theorem written_cons {n : Nat} {l : List Byte} (hn : n < 8100) (hm : n + m.length ≤ 8100) :
    FullText (n + m.length + 1) (l :: ls) ↔ FullText n (m :: l :: ls) := by
  have hlen := text_cons_length m l ls
  constructor
  · rintro (h | h | ⟨h, before, k, heq, hk⟩)
    · exact Or.inl (by omega)
    · cases ls with
      | cons k ks =>
          have hpos := text_cons_length l k ks
          rw [h, List.length_nil] at hpos
          omega
      | nil =>
          rw [text_single] at h
          subst h
          rw [text_single, List.length_nil] at hlen
          by_cases hlast : n + m.length = 8100
          · refine Or.inr (Or.inr ⟨by omega, [], m, rfl, fun hnil => ?_⟩)
            rw [hnil, List.length_nil] at hlast
            omega
          · exact Or.inl (by omega)
    · exact Or.inr (Or.inr ⟨by omega, m :: before, k, congrArg _ heq, hk⟩)
  · rintro (h | h | ⟨h, before, k, heq, hk⟩)
    · exact Or.inl (by omega)
    · rw [h] at hlen
      exact absurd hlen (by rw [List.length_nil]; omega)
    · cases before with
      | nil =>
          obtain ⟨rfl, hrest⟩ := List.cons.inj heq
          rw [hrest]
          exact Or.inr (Or.inl (text_single []))
      | cons b before =>
          obtain ⟨rfl, hrest⟩ := List.cons.inj heq
          exact Or.inr (Or.inr ⟨by omega, before, k, hrest, hk⟩)

theorem written_single {n : Nat} : FullText n [m] ↔ n + m.length ≤ 8100 ∨ m = [] := by
  unfold FullText
  rw [text_single]
  refine ⟨?_, fun h => h.imp_right Or.inl⟩
  rintro (h | h | ⟨-, before, k, heq, -⟩)
  · exact Or.inl h
  · exact Or.inr h
  · have hlen := congrArg List.length heq
    rw [List.length_append, List.length_singleton, List.length_cons, List.length_singleton] at hlen
    omega

/-- A buffer that takes no more loses what is still to come. -/
theorem not_written_full {n : Nat} {l : List Byte} (hn : ¬ n < 8100) : ¬ FullText n (m :: l :: ls) := by
  have hlen := text_cons_length m l ls
  rintro (h | h | ⟨h, before, k, heq, hk⟩)
  · omega
  · rw [h, List.length_nil] at hlen
    omega
  · have hnil : m = [] := List.length_eq_zero_iff.mp (by omega)
    have htext : text (l :: ls) = [] := List.length_eq_zero_iff.mp (by omega)
    cases before with
    | nil => exact hk ((List.cons.inj heq).1.symm.trans hnil)
    | cons b before =>
        have hrest := (List.cons.inj heq).2
        refine text_ne_nil ?_ htext
        rw [hrest]
        exact (Nat.lt_add_left before.length Nat.one_lt_two).trans_eq (show before.length + [k, []].length = _ from List.length_append.symm)

/-- The buffer holds the whole text, or less than that. -/
theorem joined_spec : ∀ (ls : List (List Byte)) (out : List Byte), ls ≠ [] → out.length ≤ 8101 →
    (joined ls out).length ≤ 8101 ∧ (FullText out.length ls → joined ls out = out ++ text ls) ∧
      (¬ FullText out.length ls → (joined ls out).length < out.length + (text ls).length) := by
  intro ls
  induction ls with
  | nil => exact fun _ h => absurd rfl h
  | cons m ls ih =>
      intro out _ hout
      cases ls with
      | nil =>
          rw [written_single, text_single]
          by_cases h : out.length < 8100
          · have hjoin : joined [m] out = out ++ m.take (8100 - out.length) := by
              rw [joined, if_pos h, if_pos rfl, List.append_nil]
              rfl
            rw [hjoin, List.length_append, List.length_take]
            refine ⟨by omega, fun hw => ?_, fun hw => ?_⟩
            · rw [List.take_of_length_le]
              rcases hw with hw | rfl
              · omega
              · exact Nat.zero_le _
            · have := not_or.mp hw
              omega
          · rw [joined_full h]
            refine ⟨hout, fun hw => ?_, fun hw => ?_⟩
            · rcases hw with hw | rfl
              · rw [List.length_eq_zero_iff.mp (show m.length = 0 by omega), List.append_nil]
              · rw [List.append_nil]
            · have := List.length_pos_iff.mpr (not_or.mp hw).2
              omega
      | cons l ls =>
          have hlen := text_cons_length m l ls
          by_cases h : out.length < 8100
          · rw [joined_cons h]
            by_cases hm : out.length + m.length ≤ 8100
            · have htake : m.take (8100 - out.length) = m := List.take_of_length_le (by omega)
              have hnext : (out ++ m ++ [10]).length = out.length + m.length + 1 := by
                rw [List.length_append, List.length_append, List.length_singleton]
              obtain ⟨h1, h2, h3⟩ := ih (out ++ m ++ [10]) (List.cons_ne_nil l ls) (by omega)
              rw [hnext, written_cons h hm] at h2 h3
              rw [htake]
              refine ⟨h1, fun hw => ?_, fun hw => ?_⟩
              · rw [h2 hw, text_cons, List.append_assoc, List.append_assoc]
                rfl
              · have := h3 hw
                omega
            · -- the newline behind a line that was cut off fills the buffer
              have hcut : (out ++ m.take (8100 - out.length) ++ [10]).length = 8101 := by
                rw [List.length_append, List.length_append, List.length_take, List.length_singleton]
                omega
              rw [joined_full (by omega), hcut]
              refine ⟨Nat.le_refl _, fun hw => ?_, fun _ => by omega⟩
              rcases hw with hw | hw | ⟨hw, -⟩
              · omega
              · rw [hw, List.length_nil] at hlen
                omega
              · omega
          · rw [joined_full h]
            exact ⟨hout, fun hw => absurd hw (not_written_full h), fun _ => by omega⟩

/-! ### The loops -/

namespace Editor

open Prog

variable {φ : Type} {s t : Editor φ} {d : Document}

theorem save_chars_ok {l : Nat} (hl : l < 128) (hrow : Row s l m) (hm : m.length ≤ 73) :
    ∀ (n c : Nat) (out : List Byte), c + n = m.length →
      save_chars l n c out s = .ok (out ++ (m.drop c).take (8100 - out.length)) s := by
  intro n
  induction n with
  | zero =>
      intro c out hc
      rw [List.drop_eq_nil_of_le (by omega), List.take_nil, List.append_nil]
      rfl
  | succ n ih =>
      intro c out hc
      rw [save_chars]
      by_cases h : out.length < 8100
      · rw [if_pos h, bind_of_ok (getChar_ok ⟨by omega, by omega⟩), hrow.chars c (by omega)]
        have hstep := ih (c + 1) (out ++ [m.getD c 0]) (by omega)
        rw [Int.natCast_add, Int.natCast_one] at hstep
        rw [hstep, List.drop_eq_getElem_cons (show c < m.length by omega), List.getD_eq_getElem _ _ (by omega),
          show 8100 - out.length = 8100 - (out ++ [m[c]]).length + 1 by
            rw [List.length_append, List.length_singleton]
            omega, List.take_succ_cons, List.append_assoc]
        rfl
      · rw [if_neg h, show 8100 - out.length = 0 by omega, List.take_zero, List.append_nil]
        rfl

theorem save_lines_ok (h : Holds s d) : ∀ (n l : Nat) (out : List Byte), l + n = d.lines.length →
    save_lines n l out s = .ok (joined (d.lines.drop l) out) s := by
  have hmax := h.good.lines_max
  intro n
  induction n with
  | zero =>
      intro l out hl
      rw [List.drop_eq_nil_of_le (by omega)]
      rfl
  | succ n ih =>
      intro l out hl
      have hlt : l < d.lines.length := by omega
      have hrow := h.row_at hlt
      have hline : d.lines.drop l = d.line l :: d.lines.drop (l + 1) := by
        rw [List.drop_eq_getElem_cons hlt, Document.line, List.getD_eq_getElem _ _ hlt]
      rw [save_lines, hline, joined]
      by_cases hout : out.length < 8100
      · have hchars := save_chars_ok (by omega) hrow (h.good.line_le hlt) (d.line l).length 0 out (by omega)
        rw [Int.natCast_zero] at hchars
        rw [if_pos hout, if_pos hout, bind_of_ok (getLen_ok ⟨by omega, by omega⟩), hrow.len, Int.toNat_natCast]
        rw [bind_of_ok hchars, bind_gets, h.total]
        have hstep := fun out => ih (l + 1) out (by omega)
        simp only [Int.natCast_add, Int.natCast_one] at hstep
        rw [hstep, List.drop_zero]
        by_cases hlast : d.lines.drop (l + 1) = []
        · have := List.drop_eq_nil_iff.mp hlast
          rw [if_neg (by omega), if_pos hlast, List.append_nil]
        · have : l + 1 < d.lines.length := by
            rwa [List.drop_eq_nil_iff, Nat.not_le] at hlast
          rw [if_pos (by omega), if_neg hlast]
      · rw [if_neg hout, if_neg hout]
        rfl

theorem out_buf_ok (h : Holds s d) : out_buf s = .ok (joined d.lines []) s := by
  unfold out_buf
  rw [bind_gets, h.total, Int.toNat_natCast]
  exact save_lines_ok h d.lines.length 0 [] (Nat.zero_add _)

/-- The state `save_file` leaves behind. -/
def afterSave (fs : FS_API φ) (s : Editor φ) (out : List Byte) : Editor φ :=
  { s with
    files := (fs.write_file s.files s.filename out).2
    written := s.written ++ [(s.filename, out)]
    is_dirty := if (fs.write_file s.files s.filename out).1 then false else s.is_dirty
    status_msg := if (fs.write_file s.files s.filename out).1 then saved else saveError }

theorem save_file_ok (fs : FS_API φ) (h : Holds s d) :
    save_file (some fs) s = .ok () (afterSave fs s (joined d.lines [])) := by
  show (out_buf >>= _) s = _
  rw [bind_of_ok (out_buf_ok h)]
  rfl

/-- Saving leaves the document as it is. -/
theorem afterSave_holds (fs : FS_API φ) (h : Holds s d) (out : List Byte) : Holds (afterSave fs s out) d :=
  ⟨h.good, h.total, h.y, h.x, fun j m hm => ⟨(h.rows j m hm).len, (h.rows j m hm).chars⟩⟩

end Editor

end Eke
